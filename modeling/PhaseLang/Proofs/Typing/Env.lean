import PhaseLang.Proofs.Typing.Runs

/-!
# Resolving without files

In a context that has no loader and knows no declarations, what a path or a member means is a
function of three things: what the names in scope are bound to, the namespace, and the
declarations of the program. `Env` holds the three.
-/

namespace PhaseLang

variable {declared : String → Option Ty} {c : Context}

/-! ## Contexts without files -/

/-- The context has no loader, and what it knows are some declarations and names that nothing
declares. -/
structure Context.Knows (declared : String → Option Ty) (c : Context) : Prop where
  noLoader : c.loader = none
  declares : ∀ key type, declared key = some type → c.types.get? key = some type
  undeclared : ∀ key type, declared key = none → c.types.get? key = some type → type = .builtin key

abbrev Context.Blank (c : Context) : Prop := c.Knows fun _ => none

theorem Context.blank_empty (nextId : Nat) : Context.Blank { nextId } := ⟨rfl, nofun, nofun⟩

theorem Context.Knows.getType (h : c.Knows declared)
    (name : String) :
    (c.getType name).1 = (declared (QualifiedName.key name)).getD (.builtin (QualifiedName.key name)) ∧
      (c.getType name).2.1.Knows declared := by
  unfold Context.getType
  dsimp only
  cases known : c.types.get? (QualifiedName.key name) with
  | some type =>
    refine ⟨?_, h⟩
    cases hd : declared (QualifiedName.key name) with
    | some other => exact Option.some.inj (known.symm.trans (h.declares _ _ hd))
    | none => exact h.undeclared _ _ hd known
  | none =>
    have new : declared (QualifiedName.key name) = none := by
      cases hd : declared (QualifiedName.key name) with
      | some type => simp [h.declares _ _ hd] at known
      | none => rfl
    have fetched : c.fetch (QualifiedName.key name) = (.builtin (QualifiedName.key name),
        { c with
          types := c.types.insert (QualifiedName.key name) (.builtin (QualifiedName.key name))
          history := c.history ++ [.loaded (QualifiedName.key name) ⟨.ok none, c.nextId, []⟩] }, []) := by
      simp [Context.fetch, h.noLoader]
    dsimp only
    rw [fetched, new]
    refine ⟨rfl, h.noLoader, fun key type hd => ?_, fun key type hd found => ?_⟩
    · have other : QualifiedName.key name ≠ key := fun same => by simp [← same, new] at hd
      simp [Bindings.get?_insert, other, h.declares key type hd]
    · simp only [Bindings.get?_insert] at found
      split at found
      · rename_i same
        cases found
        rw [same]
      · exact h.undeclared key type hd found

theorem Context.Knows.getType_reports (h : c.Knows declared)
    (name : String) : (c.getType name).2.2 = [] := (c.getType_loader name).2 h.noLoader

def Context.Lasting (I : Context → Prop) : Prop := ∀ (c : Context) (name : String), I c → I (c.getType name).2.1

theorem Context.lasting_of_fetch {I : Context → Prop}
    (h : ∀ (c : Context) (key : String), c.types.get? key = none → I c → I (c.fetch key).2.1) : Context.Lasting I := by
  intro c name hc
  unfold getType
  dsimp only
  cases known : c.types.get? (QualifiedName.key name) with
  | some t => exact hc
  | none => exact h c _ known hc

def Context.afterLookUps (c : Context) (names : List String) : Context :=
  names.foldl (fun c name => (c.getType name).2.1) c

theorem Context.Lasting.afterLookUps {I : Context → Prop} (lasting : Context.Lasting I) (names : List String) :
    ∀ {c : Context}, I c → I (c.afterLookUps names) := by
  induction names with
  | nil => exact fun h => h
  | cons name names ih => exact fun h => ih (lasting _ name h)

theorem Context.Knows.afterLookUps (names : List String)
    (h : c.Knows declared) : (c.afterLookUps names).Knows declared :=
  Context.Lasting.afterLookUps (fun _ name h => (h.getType name).2) names h

theorem Bindings.get?_insertAll {α : Type} (new bs : Bindings α) (name : String) :
    (bs.insertAll new).get? name = ((Bindings.insertAll [] new).get? name).or (bs.get? name) := by
  induction new generalizing bs with
  | nil => rfl
  | cons entry new ih =>
    have step (bs : Bindings α) : bs.insertAll (entry :: new) = (bs.insert entry.1 entry.2).insertAll new := rfl
    rw [step, step, ih, ih (Bindings.insert _ _ []), Bindings.get?_insert, Bindings.get?_insert, Option.or_assoc]
    by_cases h : entry.1 = name
    · simp [h]
    · simp [h, Bindings.get?]

def Surface.at? (surface : Surface) (key : String) : Option Ty :=
  (Bindings.insertAll [] (surface.map fun entry => (QualifiedName.key entry.1, entry.2))).get? key

theorem Context.addTypes_get? (c : Context) (surface : Surface) (key : String) :
    (c.addTypes surface).types.get? key = (surface.at? key).or (c.types.get? key) :=
  Bindings.get?_insertAll _ c.types key

theorem Context.Knows.addTypes (h : c.Knows declared)
    (surface : Surface) : (c.addTypes surface).Knows fun key => (surface.at? key).or (declared key) where
  noLoader := h.noLoader
  declares key type hd := by
    rw [c.addTypes_get?]
    cases own : surface.at? key with
    | some other => simpa [own] using hd
    | none =>
      rw [own, Option.none_or] at hd
      exact h.declares key type hd
  undeclared key type hd found := by
    rw [Option.or_eq_none_iff] at hd
    rw [c.addTypes_get?, hd.1, Option.none_or] at found
    exact h.undeclared key type hd.2 found

/-! ## Environments -/

structure Env where
  scope : String → Option Ty
  ns : List String
  surface : Surface

def Typing.env (s : Typing) : Env := ⟨s.scopes.resolve, s.ns, s.surface⟩

inductive Found where
  | member (m : Member)
  /-- At a class that is not known. -/
  | unknown

def Found.of? (name : String) : Option Class → Option Found
  | some c => (c.ownMember? name).map .member
  | none => some .unknown

def Found.first? (name : String) (line : List (Option Class)) : Option Found := line.findSome? (of? name)

theorem Found.first?_append (name : String) (line more : List (Option Class)) :
    first? name (line ++ more) = (first? name line).or (first? name more) := List.findSome?_append

namespace Env

def resolveName (E : Env) (path : TypePath) : Ty :=
  let name := path.qualifiedName
  let inner := if path.absolute || E.ns.isEmpty then none else some (path.qualify E.ns).qualifiedName
  let visible := if path.absolute then none else E.scope name
  let own := (inner.bind E.surface.get?).or (E.surface.get? name)
  (visible.or own).getD (.builtin (QualifiedName.key name))

def resolve (E : Env) (path : TypePath) : Ty :=
  if path.nullable then .nullable (E.resolveName path) else E.resolveName path

def resolveOr (E : Env) (default : Ty) (path : Option TypePath) : Ty :=
  (path.map E.resolve).getD default

/-- The row of classes behind an ancestor that is a class, and an unknown one behind any other. -/
def behind (E : Env) (line : Class → List (Option Class)) (path : TypePath) : List (Option Class) :=
  match E.resolve path with
  | .classOf c | .objectOf c => line c
  | _ => [none]

/-- A class, and the classes that it inherits members from, in the order in which they are
searched. Those more than `limit` steps away are unknown. -/
def lineage (E : Env) : Nat → Class → List (Option Class)
  | 0, c => some c :: (Typer.ancestors c).flatMap (E.behind fun _ => [none])
  | limit + 1, c => some c :: (Typer.ancestors c).flatMap (E.behind (E.lineage limit))

def memberKindType (E : Env) : MemberKind → Ty
  | .use _ => .void
  | .field type _ => E.resolveOr .any type
  | .property type _ _ => E.resolveOr .any type
  | .method f => .func f

def foundType (E : Env) : Found → Ty
  | .member m => E.memberKindType m.kind
  | .unknown => .any

end Env

/-! ## Evaluation -/

namespace Typer

variable {α β : Type} {E : Env}

/-- Where the environment is `E` and the context is blank, the computation gives `a`, and both
stay so. -/
def Evals (E : Env) (m : Typer α) (a : α) : Prop :=
  ∀ s : Typing, s.env = E → s.context.Blank →
    (m.run s).1 = a ∧ (after m s).env = E ∧ (after m s).context.Blank

theorem evals_pure (a : α) : Evals E (pure a) a := fun _ hE hb => ⟨rfl, hE, hb⟩

theorem Evals.bind {m : Typer α} {f : α → Typer β} {a : α} {b : β} (h : Evals E m a) (hf : Evals E (f a) b) :
    Evals E (m >>= f) b := by
  intro s hE hb
  obtain ⟨rfl, hE', hb'⟩ := h s hE hb
  exact hf _ hE' hb'

theorem evals_get {f : Typing → Typer α} {a : α} (h : ∀ s : Typing, s.env = E → Evals E (f s) a) :
    Evals E (get >>= f) a :=
  fun s hE hb => h s hE s hE hb

theorem report_evals (pos : Position) (message : String) : Evals E (report pos message) () :=
  fun _ hE hb => ⟨rfl, hE, hb⟩

theorem lookUp_evals (name : String) : Evals E (lookUp name) (.builtin (QualifiedName.key name)) := by
  intro s hE hb
  obtain ⟨hv, hb'⟩ := hb.getType name
  exact ⟨hv, hE, hb'⟩

theorem resolveName_evals (path : TypePath) : Evals E (resolveName path) (E.resolveName path) := by
  refine evals_get fun s hE => ?_
  have parts : s.scopes.resolve = E.scope ∧ s.ns = E.ns ∧ s.surface = E.surface := by
    subst hE
    exact ⟨rfl, rfl, rfl⟩
  simp only [parts, Env.resolveName]
  split
  · rename_i found
    simp only [found, Option.getD_some]
    exact evals_pure _
  · rename_i found _
    simp only [found, Option.getD_none]
    exact lookUp_evals _
  · rename_i found _
    simp only [found, Option.getD_none]
    -- what the context says about the namespace is not informative either
    exact (lookUp_evals _).bind (lookUp_evals _)

theorem resolve_evals (path : TypePath) : Evals E (resolve path) (E.resolve path) :=
  (resolveName_evals path).bind (evals_pure _)

theorem resolveOr_evals {default : Ty} : ∀ path, Evals E (resolveOr default path) (E.resolveOr default path)
  | none => evals_pure _
  | some path => resolve_evals path

/-! ## Members -/

theorem memberKindType_evals {kind : MemberKind} : Evals E (memberKindType kind) (E.memberKindType kind) := by
  cases kind with
  | use _ => exact evals_pure _
  | field type _ => exact resolveOr_evals type
  | property type _ _ => exact resolveOr_evals type
  | method _ => exact evals_pure _

theorem searchAll_evals {name : String} {search : Class → Typer (Option Ty)}
    {line : Class → List (Option Class)}
    (h : ∀ c, Evals E (search c) ((Found.first? name (line c)).map E.foundType)) :
    ∀ paths, Evals E (searchAll search paths)
      ((Found.first? name (paths.flatMap (E.behind line))).map E.foundType)
  | [] => evals_pure _
  | path :: paths => by
    refine (resolve_evals path).bind ?_
    rw [List.flatMap_cons, Found.first?_append, Env.behind]
    cases E.resolve path with
    | classOf c | objectOf c =>
      refine (h c).bind ?_
      cases Found.first? name (line c) with
      | some _ => exact evals_pure _
      | none => exact searchAll_evals h paths
    | _ => exact evals_pure _

/-- Typing gives the type of the first declaration of a member in the lineage of a class. -/
theorem memberType_evals (name : String) : ∀ limit c,
    Evals E (memberType name limit c) ((Found.first? name (E.lineage limit c)).map E.foundType) := by
  intro limit
  induction limit with
  | zero =>
    intro c
    simp only [memberType, Env.lineage, Found.first?, Found.of?, List.findSome?_cons]
    cases c.ownMember? name with
    | some m => exact memberKindType_evals.bind (evals_pure _)
    | none =>
      have unknown (_ : Class) : Evals E (pure (some .any)) ((Found.first? name [none]).map E.foundType) :=
        evals_pure _
      exact searchAll_evals unknown _
  | succ limit ih =>
    intro c
    simp only [memberType, Env.lineage, Found.first?, Found.of?, List.findSome?_cons]
    cases c.ownMember? name with
    | some m => exact memberKindType_evals.bind (evals_pure _)
    | none => exact searchAll_evals ih _

/-! ## Values -/

theorem named_evals (name : String) (pos : Position) : Evals E (named name pos) ((E.scope name).getD .any) := by
  refine evals_get fun s hE => ?_
  have scope : s.scopes.resolve name = E.scope name := by rw [← hE]; rfl
  simp only [scope]
  cases E.scope name with
  | some _ => exact evals_pure _
  | none => exact (report_evals _ _).bind (evals_pure _)

end Typer

end PhaseLang
