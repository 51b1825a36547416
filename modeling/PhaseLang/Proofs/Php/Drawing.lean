import PhaseLang.Proofs.Php.Members
import PhaseLang.Proofs.Php.Sides
import PhaseLang.Proofs.Typing.Drawing
import PhaseLang.Proofs.Typing.Equality

/-!
# Lowering a redrawn program

A redrawn program is lowered to the same PHP as the program itself. Lowering looks at positions in one
place only: it takes a value for a string if its type is the same as the one that `String` stands for.
So the redrawn program has to tell that type from its other types.
-/

namespace PhaseLang.Php

def textType (declared : String → Option Ty) : Ty := (declared "String").getD (.builtin "String")

/-- What lowering asks about types is answered alike for a program and for the redrawn one. -/
structure Drawable (D : Redraw) (A : Citation → Prop) (K : PhaseLang.Class → Prop)
    (declared declared' : String → Option Ty) (names names' : FunctionNames) (Q : Visit → Prop) : Prop where
  lawful : D.Lawful
  paths : ∀ path, A (.path path)
  imported : names'.imported = names.imported
  typed : ∀ {e p s}, Q ⟨D.expr e, p, s⟩ → Twin? D A K (names.types.get? e.id) (names'.types.get? (D.id e.id))
  known : ∀ key, Twin? D A K (declared key) (declared' key)
  text : ∀ {t u}, Twin D A K t u → u.same (textType declared') = t.same (textType declared)

/-- A lowering where some declarations are known, and one where the redrawn ones are, give the same. -/
def drawing (declared declared' : String → Option Ty) : Pairing Lower where
  Rel m m' P := ∃ a, Evals declared m a ∧ Evals declared' m' a ∧ P a
  pure {_ _ a} h := ⟨a, evals_pure a, evals_pure a, h⟩
  bind h hf := by
    obtain ⟨a, left, right, ha⟩ := h
    obtain ⟨b, left', right', hb⟩ := hf a ha
    exact ⟨b, left.bind left', right.bind right', hb⟩

section
variable {D : Redraw} {A : Citation → Prop} {K : PhaseLang.Class → Prop} {declared declared' : String → Option Ty}
  {names names' : FunctionNames} {Q : Visit → Prop}

theorem ofMember_redraw (lawful : D.Lawful) (m : PhaseLang.Member) :
    MemberInfo.ofMember (D.member m) = .ofMember m := by
  obtain ⟨_, kind, _, _, _⟩ := m
  rw [lawful.member]
  cases kind <;> rfl

theorem firstMember?_redraw (lawful : D.Lawful) (name : String) (cs : List PhaseLang.Class) :
    firstMember? name (cs.map D.cls) = (firstMember? name cs).map D.member := by
  induction cs with
  | nil => rfl
  | cons c cs ih =>
    unfold firstMember? at ih ⊢
    rw [List.map_cons, List.findSome?_cons, List.findSome?_cons, lawful.ownMember?, ih]
    cases c.ownMember? name <;> rfl

namespace Drawable

variable (h : Drawable D A K declared declared' names names' Q)
include h

/-! ## Declarations -/

theorem answer (key : String) :
    Twin D A K ((declared key).getD (.builtin key)) ((declared' key).getD (.builtin key)) := by
  have known := h.known key
  generalize declared key = t at known
  generalize declared' key = u at known
  cases known with
  | some twin => exact twin
  | none => exact ⟨.unknown _, fun p _ => h.paths p, trivial⟩

theorem classNamed (name : String) : classNamed declared' name = (classNamed declared name).map D.cls := by
  have known := h.known (QualifiedName.key name)
  unfold Php.classNamed
  generalize declared (QualifiedName.key name) = t at known
  generalize declared' (QualifiedName.key name) = u at known
  cases known with
  | some twin => exact twin.class?
  | none => rfl

theorem classAt (ns : List String) (path : TypePath) :
    classAt declared' ns path = (classAt declared ns path).map D.cls := by
  unfold Php.classAt
  rw [h.classNamed, h.classNamed, Option.map_or]
  congr 1
  split <;> rfl

theorem lineage (ns : List String) (limit : Nat) : ∀ c : PhaseLang.Class,
    lineage declared' ns limit (D.cls c) = (lineage declared ns limit c).map D.cls := by
  induction limit with
  | zero => exact fun _ => rfl
  | succ limit ih =>
    intro c
    unfold Php.lineage
    have inherits : (D.cls c).parent.toList ++ (D.cls c).interfaces = c.parent.toList ++ c.interfaces := by
      cases c
      rw [h.lawful.cls]
    rw [inherits, h.lawful.traits, List.map_cons, List.map_flatMap]
    congr 2
    funext path
    rw [h.classAt]
    cases Php.classAt declared ns path with
    | none => rfl
    | some d => simp [ih d]

/-! ## Expressions -/

variable {e : PhaseLang.Expr} {p : Place} {s : Typing} (visited : Q ⟨D.expr e, p, s⟩) {c : Scene}
include visited

theorem typeOf : Twin D A K ((c.under names).typeOf e) ((c.under names').typeOf (D.expr e)) := by
  have typed := h.typed visited
  obtain ⟨_, _, _⟩ := e
  rw [h.lawful.expr]
  exact typed.getD

theorem contains (name : String) : names'.contains (D.id e.id) name = names.contains e.id name := by
  have typed := h.typed visited
  unfold FunctionNames.contains
  rw [h.imported]
  generalize names.types.get? e.id = t at typed
  generalize names'.types.get? (D.id e.id) = u at typed
  cases typed with
  | none => rfl
  | some twin =>
    cases twin.drawn with
    | func f =>
      cases f
      rw [h.lawful.func]
    | _ => rfl

theorem namesClass : namesClass (c.under names') (D.expr e) = namesClass (c.under names) e := by
  have type := (h.typeOf visited (c := c)).nonNull.drawn
  unfold Php.namesClass
  generalize ((c.under names).typeOf e).nonNull = t at type
  generalize ((c.under names').typeOf (D.expr e)).nonNull = u at type
  obtain ⟨_, _, kind⟩ := e
  rw [h.lawful.expr]
  cases kind <;> cases type <;> rfl

theorem callForm : Lower.callForm (c.under names') (D.expr e) = Lower.callForm (c.under names) e := by
  have known := h.contains visited
  have type := (h.typeOf visited (c := c)).nonNull.drawn
  unfold Lower.callForm
  generalize ((c.under names).typeOf e).nonNull = t at type
  generalize ((c.under names').typeOf (D.expr e)).nonNull = u at type
  obtain ⟨_, _, kind⟩ := e
  rw [h.lawful.expr]
  cases kind with
  | ident name =>
    simp only [Redraw.exprKind, known]
    cases type <;> rfl
  | super _ | path _ => rfl
  | _ => cases type <;> rfl

theorem isString : (drawing declared declared').Rel (Php.isString (c.under names) e)
    (Php.isString (c.under names') (D.expr e)) fun _ => True := by
  have compared {t u : Ty} (twin : Twin D A K t u) : (drawing declared declared').Rel
      (do return t.same (← lookUp "String")) (do return u.same (← lookUp "String")) fun _ => True := by
    refine ⟨t.same (textType declared), (lookUp_evals "String").bind (evals_pure _), ?_, trivial⟩
    rw [← h.text twin]
    exact (lookUp_evals "String").bind (evals_pure _)
  have type := (h.typeOf visited (c := c)).nonNull
  unfold Php.isString
  generalize ((c.under names).typeOf e).nonNull = t at type
  generalize ((c.under names').typeOf (D.expr e)).nonNull = u at type
  have plain := compared type
  cases type.drawn with
  | unknown path =>
    cases path with
    | none => exact plain
    | some path =>
      -- what a path that is not known yet stands for is asked on both sides
      obtain ⟨b, left, right, -⟩ := compared (h.answer (QualifiedName.key path.qualifiedName))
      exact ⟨b, (lookUp_evals path.qualifiedName).bind left, (lookUp_evals path.qualifiedName).bind right, trivial⟩
  | _ => exact plain

theorem accessTo (name : String) : (drawing declared declared').Rel (Php.accessTo (c.under names) e name)
    (Php.accessTo (c.under names') (D.expr e) name) fun _ => True := by
  have own := h.namesClass visited (c := c)
  have ofClass := (h.typeOf visited (c := c)).class?
  cases found : ((c.under names).typeOf e).class? with
  | none =>
    rw [found] at ofClass
    unfold Php.accessTo
    rw [found, ofClass, own]
    exact ⟨_, (evals_pure none).bind (evals_pure _), (evals_pure none).bind (evals_pure _), trivial⟩
  | some cls =>
    rw [found] at ofClass
    have seen : (firstMember? name (Php.lineage declared' c.ns inheritanceLimit (D.cls cls))).map MemberInfo.ofMember =
        (firstMember? name (Php.lineage declared c.ns inheritanceLimit cls)).map .ofMember := by
      rw [h.lineage, firstMember?_redraw h.lawful, Option.map_map]
      congr 1
      funext m
      exact ofMember_redraw h.lawful m
    refine ⟨_, accessTo_evals found name, ?_, trivial⟩
    have right : Evals declared' _ _ := accessTo_evals ofClass name
    rwa [own, seen] at right

end Drawable

/-! ## Programs -/

theorem closing_drawing (h : Drawable D A K declared declared' names names' Q) :
    Closing (drawing declared declared') D names names' Q (fun _ => True) (fun _ => True)
      (fun _ _ => True) .any false where
  lawful := h.lawful
  own _ := trivial
  contains hv _ := h.contains hv _
  callForm hv := h.callForm hv
  visit _ h := h
  isString hv := h.isString hv
  sum hv _ := by
    obtain ⟨b, left, right, -⟩ := h.isString hv
    exact ⟨b, left, right, fun _ => trivial⟩
  accessTo hv := h.accessTo hv _
  made _ _ _ := ⟨trivial, trivial⟩
  read _ := trivial
  readIndex _ := trivial
  added _ _ := trivial
  bound _ _ _ := trivial
  loop _ _ _ _ := trivial
  stmt _ := trivial
  text _ := trivial
  literal _ := trivial

end

end PhaseLang.Php
