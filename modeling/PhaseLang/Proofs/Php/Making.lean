import PhaseLang.Proofs.Grammar.Citations
import PhaseLang.Proofs.Php.Pieces
import PhaseLang.Proofs.Php.Sides
import PhaseLang.Proofs.Typing.Records

/-!
# What lowering makes

A property of all expressions that are written follows from what it says about one step: it has to be
`Closed`, or, if it depends on what is looked up on the way, a `Making`.
-/

namespace PhaseLang.Php

def Arranged (A : ExprKind → Prop) (cs : List Citation) : Prop := ∀ e, .node e ∈ cs → A e.kind

/-- A property of what is written that holds after each step. -/
structure Closed (Shape : ExprKind → Expr → Prop) (F : Expr → Prop) : Prop where
  made : ∀ {kind p}, kind.Layered → Makes (fun _ => True) Shape kind p → Shape kind p ∧ F p
  added : ∀ {p}, Added p → F p
  bound : ∀ {e p}, Expr.StandsAt 8 e → Shape e.kind p → F (.binary p .sub (.literal (.number "1")))
  /-- A loop over a range has a test where the range has a bound. -/
  loop : ∀ {p} key, F (.binary p .sub (.literal (.number "1"))) → F (.binary (.var key) .less p)

/-- The same, for expressions of the kinds `A`, where the state has the property `I` whenever a
name is looked up. -/
structure Making (I : Progress → Prop) (names : FunctionNames) (A : ExprKind → Prop) (Sum : PhaseLang.Expr → Prop)
    (Shape : ExprKind → Expr → Prop) (F : Expr → Prop) : Prop where
  lasting : Lasting I
  /-- A sum is written where the left operand is not found to be a string. -/
  sum : ∀ {scene : Scene} {lhs rhs s}, scene.names = names → A (.binary lhs .add rhs) → I s →
    ((isString scene lhs).run s).1 = false → Sum lhs
  made : ∀ {kind p}, A kind → Makes Sum Shape kind p → Shape kind p ∧ F p
  read : ∀ {target field value}, A (.set target field value) → A (.get target field)
  readIndex : ∀ {target index value}, A (.indexSet target index value) → A (.indexGet target index)
  added : ∀ {p}, Added p → F p
  bound : ∀ {lower upper p}, A (.range lower upper) → Shape upper.kind p →
    F (.binary p .sub (.literal (.number "1")))
  loop : ∀ {p} key, F (.binary p .sub (.literal (.number "1"))) → F (.binary (.var key) .less p)

theorem Closed.making {Shape : ExprKind → Expr → Prop} {F : Expr → Prop} (h : Closed Shape F) (names : FunctionNames) :
    Making (fun _ => True) names ExprKind.Layered (fun _ => True) Shape F where
  lasting _ _ _ := trivial
  sum _ _ _ _ := trivial
  made := h.made
  read hA := hA
  readIndex hA := hA
  added := h.added
  bound hA := h.bound hA.2
  loop := h.loop

/-! ## Trees and their pieces -/

def written (F : Expr → Prop) : Asks where
  expr p := Every F (Pieces.ofExpr p)
  stmt s := Every F (Pieces.ofStmt s)
  text _ := True
  literal _ := True

section
variable {F : Expr → Prop}

open Pieces

theorem every_option {e : Option Expr} (h : ∀ x ∈ e, (written F).expr x) : Every F (ofOption e) := by
  rw [ofOption_eq, every_flatMap]
  exact fun x hx => h x (Option.mem_toList.mp hx)

theorem every_exprs {es : List Expr} (h : ∀ e ∈ es, (written F).expr e) : Every F (ofExprs es) := by
  rwa [ofExprs_eq, every_flatMap]

theorem every_args {as : List Arg} (h : ∀ a ∈ as, (written F).Arg a) : Every F (ofArgs as) := by
  rw [ofArgs_eq, every_flatMap]
  exact fun a ha => (h a ha).value

theorem every_params {ps : List Param} (h : ∀ p ∈ ps, (written F).Param p) : Every F (ofParams ps) := by
  rw [ofParams_eq, every_flatMap]
  exact fun p hp => every_option (h p hp).default

theorem every_stmts {ss : List Stmt} (h : ∀ s ∈ ss, (written F).stmt s) : Every F (ofStmts ss) := by
  rwa [ofStmts_eq, every_flatMap]

theorem every_methods {ms : List Method} (h : ∀ m ∈ ms, (written F).Method m) : Every F (ofMethods ms) := by
  rw [ofMethods_eq, every_flatMap]
  refine fun m hm => every_append.mpr ⟨every_params (h m hm).params, ?_⟩
  rw [ofCode_eq, every_flatMap]
  exact fun ss hs => every_stmts ((h m hm).body ss (Option.mem_toList.mp hs))

theorem every_members {ms : List Member} (h : ∀ m ∈ ms, (written F).Member m) : Every F (ofMembers ms) := by
  rw [ofMembers_eq, every_flatMap]
  rintro ⟨attributes, kind⟩ hm
  refine every_append.mpr ⟨every_exprs (h _ hm).attributes, ?_⟩
  have inner := (h _ hm).kind
  cases kind with
  | use _ => simp
  | field _ _ => exact every_option inner.2
  | methods _ => exact every_methods inner

theorem written_parts : ∀ {p : Expr}, F p → (written F).Parts p → (written F).expr p
  | .var _, f, _ | .this, f, _ | .static, f, _ | .name _, f, _ | .parent _, f, _ | .literal _, f, _
  | .functionRef _, f, _ => every_cons.mpr ⟨f, every_nil⟩
  | .group _, f, h | .before _ _, f, h | .after _ _, f, h | .spread _, f, h | .raise _, f, h => every_cons.mpr ⟨f, h⟩
  | .instanceOf _ _, f, h | .member _ _, f, h | .classMember _ _, f, h | .classVar _ _, f, h => every_cons.mpr ⟨f, h.1⟩
  | .assign _ _, f, h | .binary _ _ _, f, h | .computed _ _, f, h => every_cons.mpr ⟨f, every_append.mpr h⟩
  | .ternary _ _ _, f, h => every_cons.mpr ⟨f, every_append.mpr ⟨every_append.mpr ⟨h.1, h.2.1⟩, h.2.2⟩⟩
  | .call _ _, f, h | .create _ _, f, h => every_cons.mpr ⟨f, every_append.mpr ⟨h.1, every_args h.2⟩⟩
  | .attribute _ _, f, h => every_cons.mpr ⟨f, every_args h.2⟩
  | .index _ _, f, h => every_cons.mpr ⟨f, every_append.mpr ⟨h.1, every_option h.2⟩⟩
  | .list _, f, h => every_cons.mpr ⟨f, every_exprs h⟩
  | .map _, f, h => by
    refine every_cons.mpr ⟨f, ?_⟩
    rw [ofEntries_eq, every_flatMap]
    exact fun e he => every_append.mpr ⟨(h e he).key, (h e he).value⟩
  | .closure _ _ _ _, f, h => every_cons.mpr ⟨f, every_append.mpr ⟨every_params h.1, every_stmts h.2.2.2⟩⟩
  | .choose _ _, f, h => by
    refine every_cons.mpr ⟨f, every_append.mpr ⟨h.1, ?_⟩⟩
    rw [ofArms_eq, every_flatMap]
    exact fun a ha => every_append.mpr ⟨every_option (h.2 a ha).condition, (h.2 a ha).value⟩

theorem written_stmtParts : ∀ {s : Stmt}, (written F).StmtParts s → (written F).stmt s
  | .imports _, _ | .global _, _ => every_nil
  | .expr _, h => h
  | .inNamespace _ _, h => every_stmts h.2
  | .attempt _ _, h => every_append.mpr ⟨h.1, every_stmts h.2⟩
  | .handler _ _ _, h => h.2.2
  | .whileLoop _ _, h => every_append.mpr h
  | .doLoop _ _, h => every_append.mpr h.symm
  | .forRange _ _ _ _, ⟨_, hl, hu, loop, h⟩ =>
    every_append.mpr ⟨every_append.mpr ⟨hl, hu⟩, h⟩ |> fun parts => every_cons.mpr ⟨(every_cons.mp loop).1, parts⟩
  | .forEach _ _ _ _, h => every_append.mpr ⟨h.1, h.2.2.2⟩
  | .branch _ _ no, h => by
    refine every_append.mpr ⟨every_append.mpr ⟨h.1, h.2.1⟩, ?_⟩
    rw [ofAlternative_eq, every_flatMap]
    exact fun s hs => h.2.2 s (Option.mem_toList.mp hs)
  | .switch _ _, h => by
    refine every_append.mpr ⟨h.1, ?_⟩
    rw [ofCases_eq, every_flatMap]
    exact fun c hc => every_append.mpr ⟨every_option (h.2 c hc).condition, every_stmts (h.2 c hc).body⟩
  | .block _, h => every_stmts h
  | .ret _, h => every_option h
  | .func _ ⟨_, _, _, _⟩, h =>
    every_append.mpr ⟨every_append.mpr ⟨every_exprs h.1, every_params h.2.params⟩, every_stmts h.2.body⟩
  | .cls ⟨_, _, _, _, _, _, _, _⟩, h =>
    every_append.mpr ⟨every_append.mpr ⟨every_exprs h.attributes, every_members h.members⟩, every_stmts h.afterwards⟩

end

/-! ## Programs -/

/-- All that a run writes has the property `F`. -/
abbrev Writes {α : Type} (I : Progress → Prop) (F : Expr → Prop) (pieces : α → List Expr) (m : Lower α) : Prop :=
  Ensures I m fun a => Every F (pieces a)

section
variable {I : Progress → Prop} {names : FunctionNames} {A : ExprKind → Prop} {Sum : PhaseLang.Expr → Prop}
  {Shape : ExprKind → Expr → Prop} {F : Expr → Prop} (hc : Making I names A Sum Shape F)
include hc

theorem Making.closing :
    Closing (ensuring I) .refl names names (fun v => A v.expr.kind) A Sum Shape (written F) false where
  lawful := Redraw.lawful_refl
  own h := h
  contains _ _ := rfl
  callForm _ := rfl
  visit _ h := h
  isString _ := isString_ensures hc.lasting _ _
  sum _ hA := fun s hs => ⟨hc.sum rfl hA hs, (isString_ensures hc.lasting _ _ s hs).2⟩
  accessTo _ := accessTo_ensures hc.lasting _ _ _
  made hA m parts := ⟨(hc.made hA m).1, written_parts (hc.made hA m).2 parts⟩
  read := hc.read
  readIndex := hc.readIndex
  added h := written_parts (hc.added h)
  bound hA shape h := written_parts (hc.bound hA shape) ⟨h, written_parts (hc.added (.literal _)) trivial⟩
  loop hA shape h _ := written_parts (hc.loop _ (hc.bound hA shape)) ⟨written_parts (hc.added (.var _)) trivial, h⟩
  stmt := written_stmtParts
  text _ := trivial
  literal _ := trivial

variable {scene : Scene} (hsc : scene.names = names)
include hsc

theorem expr_made (e : PhaseLang.Expr) (h : ∀ v ∈ Visits.ofExpr [] (.start [] {}) e, A v.expr.kind) :
    Writes I F Pieces.ofExpr (Lower.expr scene e) := by
  subst hsc
  have made := expr_sides hc.closing (c := scene) e h fun _ _ => Bool.noConfusion
  exact fun s hs => ⟨(made s hs).1.2, (made s hs).2⟩

theorem stmts_makes (ss : List PhaseLang.Stmt) (h : Arranged A (Cited.ofStmts ss)) :
    Writes I F Pieces.ofStmts (Lower.stmts scene ss) := by
  subst hsc
  have visited : Fits (fun v => A v.expr.kind) (visits ss {}) :=
    fun v hv => h v.expr ((visits_faithful ss {}).cited v hv)
  have made := stmts_self hc.closing (c := scene) ss visited fun _ _ => Bool.noConfusion
  exact fun s hs => ⟨every_stmts (made s hs).1, (made s hs).2⟩

end

theorem stmts_made {Shape : ExprKind → Expr → Prop} {F : Expr → Prop} (hc : Closed Shape F) (scene : Scene)
    (ss : List PhaseLang.Stmt) (layered : ∀ e ∈ Nodes.ofStmts ss, e.kind.Layered) :
    Gives (Lower.stmts scene ss) fun ps => Every F (Pieces.ofStmts ps) :=
  (stmts_makes (hc.making scene.names) rfl ss fun e he => layered e ((visits_faithful ss {}).mem e he)).gives

end PhaseLang.Php
