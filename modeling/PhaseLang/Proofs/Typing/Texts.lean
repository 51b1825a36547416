import PhaseLang.Proofs.Grammar.Numbering
import PhaseLang.Proofs.Typing.Records
import PhaseLang.Proofs.Typing.Invariants
import PhaseLang.Proofs.Typing.Surfaces
import Mathlib.Data.List.Nodup

/-!
# The type of texts

Some expressions are strings whatever the names in them mean: string literals, what `+++` joins,
and sums that start with one of these. All of them have one type in the table of a program, and it
is what the context answers to `String` in the end.
-/

namespace PhaseLang

inductive ExprKind.IsText : ExprKind → Prop
  | literal (text : String) : IsText (.literal (.string text))
  | concat (lhs rhs : Expr) : IsText (.binary lhs .concat rhs)
  | add {lhs : Expr} (h : lhs.kind.IsText) (rhs : Expr) : IsText (.binary lhs .add rhs)
  | group {e : Expr} (h : e.kind.IsText) : IsText (.group e)

def ExprKind.isText : ExprKind → Bool
  | .literal (.string _) => true
  | .binary ⟨_, _, kind⟩ op _ => op = .concat || op = .add && kind.isText
  | .group ⟨_, _, kind⟩ => kind.isText
  | _ => false

theorem ExprKind.isText_iff (kind : ExprKind) : kind.isText = true ↔ kind.IsText := by
  constructor
  · intro h
    fun_induction isText kind with
    | case1 text => exact .literal text
    | case2 id pos kind op rhs ih =>
      by_cases hop : op = .concat
      · exact hop ▸ .concat _ rhs
      · obtain ⟨rfl, left⟩ : op = .add ∧ kind.isText = true := by simpa [hop] using h
        exact .add (ih left) rhs
    | case3 id pos kind ih => exact .group (ih h)
    | case4 => simp at h
  · intro h
    induction h with
    | literal text => rfl
    | concat lhs rhs =>
      obtain ⟨id, pos, kind⟩ := lhs
      simp [isText]
    | @add lhs _ rhs ih =>
      obtain ⟨id, pos, kind⟩ := lhs
      simpa [isText] using ih
    | @group e _ ih =>
      obtain ⟨id, pos, kind⟩ := e
      exact ih

instance : DecidablePred ExprKind.IsText := fun kind => decidable_of_iff _ kind.isText_iff

theorem ExprKind.IsText.ident?_eq_none {e : Expr} (h : e.kind.IsText) : e.ident? = none := by
  obtain ⟨id, pos, kind⟩ := e
  cases h <;> rfl

/-! ## Interpolated strings -/

/-- An interpolated string with its first fragment and what was added to it one by one: fragments,
and expressions in parentheses. -/
inductive Template (text : String) : Expr → List Expr → Prop
  | first {e : Expr} (he : e.kind = .literal (.string text)) : Template text e []
  | fragment {e lhs part : Expr} {parts : List Expr} {more : String} (h : Template text lhs parts)
      (he : e.kind = .binary lhs .add part) (hp : part.kind = .literal (.string more)) :
      Template text e (parts ++ [part])
  | embedded {e lhs part inner : Expr} {parts : List Expr} (h : Template text lhs parts)
      (he : e.kind = .binary lhs .add part) (hp : part.kind = .group inner) : Template text e (parts ++ [part])

theorem Template.isText {text : String} {e : Expr} {parts : List Expr} (h : Template text e parts) : e.kind.IsText := by
  induction h with
  | first he =>
    rw [he]
    exact .literal text
  | fragment _ he _ ih | embedded _ he _ ih =>
    rw [he]
    exact .add ih _

namespace Grammar

open PhaseLang.Parser

theorem interpolation_finish {text : String} {e : Expr} {parts : List Expr} (h : Template text e parts)
    (fragment : Token) (c : Cursor) :
    wp (do
      let e ← if fragment.text.isEmpty then pure e else sum e (← stringLiteral fragment)
      if fragment.kind == .string then return Round.done e else return Round.again e)
      (fun round _ => round.either (fun e => ∃ parts, Template text e parts) fun e => ∃ parts, Template text e parts)
      c := by
  have finish {e : Expr} {parts : List Expr} (h : Template text e parts) (c : Cursor) :
      wp (if fragment.kind == .string then pure (Round.done e) else pure (.again e))
        (fun round _ => round.either (fun e => ∃ parts, Template text e parts) fun e => ∃ parts, Template text e parts)
        c := by
    simp only [wp_ite, wp_pure]
    exact ⟨fun _ => ⟨parts, h⟩, fun _ => ⟨parts, h⟩⟩
  rw [wp_ite]
  constructor
  · intro _
    rw [wp_bind, wp_pure]
    exact finish h c
  · intro _
    exact finish (.fragment h rfl rfl) _

theorem interpolation_template (r : Rules) (first : Token) (c : Cursor) :
    wp (interpolation r first) (fun e _ => ∃ parts, Template first.text e parts) c := by
  unfold interpolation
  simp only [wp_bind, stringLiteral, wp_node]
  refine wp_iterate (I := fun e _ => ∃ parts, Template first.text e parts) ⟨[], .first rfl⟩ ?_
  rintro e c ⟨parts, h⟩
  refine wp_mono (Q := fun round _ => round.either (fun e => ∃ parts, Template first.text e parts) fun e =>
    ∃ parts, Template first.text e parts) ?_ fun round _ hr => by cases round <;> exact hr
  rw [wp_bind]
  refine wp_mono (Q := fun _ _ => True) (fun _ _ _ => trivial) fun embedded c' _ => ?_
  simp only [wp_bind, wp_node, sum, wp_advance]
  split
  · exact interpolation_finish (.embedded h rfl rfl) _ _
  · exact interpolation_finish (.embedded h rfl rfl) _ _
  · simp

end Grammar

/-! ## Answers that stay -/

theorem Context.getType_known (c : Context) (name : String) :
    (c.getType name).2.1.types.get? (QualifiedName.key name) = some (c.getType name).1 := by
  unfold getType
  dsimp only
  cases known : c.types.get? (QualifiedName.key name) with
  | some t => exact known
  | none => simp only [fetch, Bindings.get?_insert, if_true]

theorem Context.lasting_known (key : String) (t : Ty) : Context.Lasting fun c => c.types.get? key = some t := by
  refine lasting_of_fetch fun c new absent h => ?_
  have other : new ≠ key := by
    rintro rfl
    simp [h] at absent
  rw [fetch, Bindings.get?_insert, if_neg other]
  exact h

/-- What `String` means at the root, as far as it is known: the declaration of the program comes first. -/
def Typing.textType? (s : Typing) : Option Ty := (s.surface.get? "String").or (s.context.types.get? "String")

theorem Typing.textType?_lookUp {s : Typing} {t : Ty} (h : s.textType? = some t) (name : String) :
    { s with context := (s.context.getType name).2.1 }.textType? = some t := by
  rw [textType?, Option.or_eq_some_iff] at h ⊢
  exact h.imp_right (.imp_right (Context.lasting_known "String" t s.context name))

def Typing.Texts (T : Nat → Prop) (s : Typing) : Prop :=
  ∀ id t, T id → s.table.get? id = some t → s.textType? = some t

namespace Typer

theorem Invariant.textType (t : Ty) : Invariant (fun _ => True) fun s => s.textType? = some t where
  other s s' surface _ context _ hs := by
    rw [Typing.textType?, surface, context]
    exact hs
  lookUp s name hs := Typing.textType?_lookUp hs name
  report s _ _ hs := hs
  record e _ s _ hs := by
    rw [after_expr]
    exact hs

theorem run_expr (e : Expr) (s : Typing) : ((expr e).run s).1 = ((exprKind e.pos e.kind).run s).1 := by
  obtain ⟨id, pos, kind⟩ := e
  rfl

theorem builtin_textType (s : Typing) : (after (builtin .string) s).textType? = some ((builtin .string).run s).1 := by
  let path : TypePath := .toAbsolute (.ofName Builtin.string.name)
  have plain : path.qualifiedName = "String" ∧ path.absolute = true ∧ path.nullable = false := by decide
  cases own : s.surface.get? "String" with
  | some t =>
    have found : (builtin .string).run s = (pure t : Typer Ty).run s := by
      simp [builtin, resolve, resolveName, path, plain, own]
    rw [after, found]
    show (s.surface.get? "String").or _ = some t
    rw [own, Option.some_or]
  | none =>
    have asked : (builtin .string).run s = (Typer.lookUp "String").run s := by
      simp [builtin, resolve, resolveName, path, plain, own]
    rw [after, asked]
    show (s.surface.get? "String").or ((s.context.getType "String").2.1.types.get? "String") = _
    rw [own, Option.none_or]
    exact Context.getType_known s.context "String"

theorem exprKind_textType {kind : ExprKind} (h : kind.IsText) (pos : Position) (s : Typing) :
    (after (exprKind pos kind) s).textType? = some ((exprKind pos kind).run s).1 := by
  induction h generalizing pos s with
  | literal text =>
    exact builtin_textType s
  | concat lhs rhs =>
    exact builtin_textType _
  | @add lhs h rhs ih =>
    have left : (after (expr lhs) s).textType? = some ((expr lhs).run s).1 := by
      rw [after_expr, run_expr]
      exact ih lhs.pos s
    exact (Invariant.textType _).expr (fits_nodes (Cited.ofExpr rhs)) left
  | @group e h ih =>
    simp only [exprKind]
    rw [after_expr, run_expr]
    exact ih e.pos s

theorem Invariant.texts (T : Nat → Prop) : Invariant (fun e => T e.id → e.kind.IsText) (Typing.Texts T) where
  other s s' surface table context _ hs id t hid found := by
    rw [table] at found
    rw [Typing.textType?, surface, context]
    exact hs id t hid found
  lookUp s name hs id t hid found := Typing.textType?_lookUp (hs id t hid found) name
  report s _ _ hs := hs
  record e text s _ hs id t hid found := by
    rw [after_expr] at found ⊢
    rw [TypeTable.get?_insert] at found
    split at found
    · rename_i same
      rw [← Option.some.inj found]
      exact exprKind_textType (text (same ▸ hid)) e.pos s
    · exact hs id t hid found

end Typer

theorem typeProgram_text {source file : String} {nextId next : Nat} {program : List Stmt}
    (read : (readSource source file nextId).result = .ok (program, next)) (context : Context) {e : Expr}
    (cited : .node e ∈ Cited.ofStmts program) (text : e.kind.IsText) :
    ∃ t, (typeProgram program context).table.get? e.id = some t ∧
      (typeProgram program context).context.types.get? "String" = some t := by
  let T : Nat → Prop := fun id => ∃ x, .node x ∈ Cited.ofStmts program ∧ x.kind.IsText ∧ x.id = id
  -- expressions with the id of a text are that text
  have fits : Fits (Citation.Nodes fun x => T x.id → x.kind.IsText) (Cited.ofStmts program) := by
    intro c hc
    cases c with
    | node x =>
      rintro ⟨y, hy, texty, same⟩
      have distinct := (readSource_built read).distinct
      have listed := (visits_faithful program context).mem
      have eq := List.inj_on_of_nodup_map distinct (listed y hy) (listed x hc) same
      exact eq ▸ texty
    | _ => trivial
  have empty : Typing.Texts T (.start program context) := by
    intro id t _ found
    simp [Typing.start, TypeTable.get?] at found
  have texts := (Typer.Invariant.texts T).stmts fits empty
  obtain ⟨t, entry⟩ := exists_entry_of_cited context cited text.ident?_eq_none
  refine ⟨t, entry, ?_⟩
  have type := texts e.id t ⟨e, cited, text, rfl⟩ entry
  rw [Typing.textType?, surface_after_stmts] at type
  rw [typeProgram_context, Context.addTypes_get?, Surface.at?_ofProgram (readSource_spelled read)]
  exact type

end PhaseLang
