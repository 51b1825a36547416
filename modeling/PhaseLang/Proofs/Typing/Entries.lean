import PhaseLang.Proofs.Typing.Points

/-!
# Every point leaves its type in the table

Typing a piece of code is typing its parts one after the other; what it does besides changes
no entry of the table. So what was recorded at a point is in the table at the end, and in a
program that was read the table has the type of each expression at its point.
-/

namespace PhaseLang

namespace Code

open Typer

def runAll (cs : List Code) (s : Typing) : Typing := cs.foldl (fun s c => after c.run s) s

def opened (c : Code) (s : Typing) : Typing :=
  match c.opening with
  | .none => s
  | .frame => s.enter
  | .within ns => { s with ns }

theorem exprKind_table (pos : Position) (s : Typing) (kind : ExprKind) :
    (after (exprKind pos kind) s).table = (runAll (ofKind kind) s).table := by
  cases kind with
  | binary lhs op rhs =>
    exact (idle_ite builtin_idle (idle_ite builtin_idle idle_pure) _).2.2.2.1
  | unary op operand _ =>
    exact (idle_ite builtin_idle idle_pure _).2.2.2.1
  | isType _ _ | logical _ _ _ | range _ _ | list _ _ | map _ _ | literal _ =>
    exact (builtin_idle _).2.2.2.1
  | call callee args =>
    exact (callResult_idle _).2.2.2.1
  | get target field =>
    obtain ⟨_, _, _, rfl⟩ | computed := field.ident_or
    · exact (member_idle _).2.2.2.1
    · rw [exprKind_get pos computed, ofKind_get computed]
      rfl
  | set target field value =>
    obtain ⟨_, _, _, rfl⟩ | computed := field.ident_or
    · rfl
    · rw [exprKind_set pos computed, ofKind_set computed]
      rfl
  | super method =>
    exact (superMember_idle _).2.2.2.1
  | path path =>
    exact (resolve_idle _ _).2.2.2.1
  | this | static =>
    exact (classBinding_idle _).2.2.2.1
  | ident name =>
    exact (named_idle _).2.2.2.1
  -- The other kinds type their parts, and do nothing else.
  | _ =>
    rfl

theorem stmt_table (s : Typing) : ∀ x : Stmt,
    (after (Typer.stmt x) s).table = (runAll (ofStmtKind x.kind) ((stmt x).opened s)).table
  | ⟨_, .use path kind _⟩ => congrArg TypeTable.mk (use_ran path kind s).table
  | ⟨_, .forIn key value target b⟩ => by
    simp only [Typer.stmt, stmtKind_forIn]
    rfl
  | ⟨_, .cls c⟩ => by
    simp only [Typer.stmt, stmtKind, cls_eq]
    rfl
  | ⟨_, .expr _⟩ | ⟨_, .raise _⟩ | ⟨_, .inNamespace _ _⟩ | ⟨_, .var _ _ _⟩ | ⟨_, .global _⟩ | ⟨_, .attempt _ _⟩
  | ⟨_, .handler _ _ _⟩ | ⟨_, .loop _ _ _⟩ | ⟨_, .branch _ _ _⟩ | ⟨_, .switch _ _⟩ | ⟨_, .block _⟩ | ⟨_, .ret _⟩
  | ⟨_, .func _⟩ => by
    rfl

theorem after_list {α : Type} {f : List α → Typer Unit} (codes : α → List Code) (nil : f [] = pure ())
    (cons : ∀ a as s, after (f (a :: as)) s = after (f as) (runAll (codes a) s)) (as : List α) (s : Typing) :
    after (f as) s = runAll (as.flatMap codes) s := by
  induction as generalizing s with
  | nil => rw [nil]; rfl
  | cons a as ih => rw [cons, ih, List.flatMap_cons, runAll, runAll, runAll, List.foldl_append]

theorem parts_table (s : Typing) : ∀ c : Code, (∀ e, c ≠ expr e) →
    (after c.run s).table = (runAll c.parts (c.opened s)).table
  | expr e, h => absurd rfl (h e)
  | optional none, _ | alternative none, _ | body none, _ | accessor none, _ => by
    rfl
  | optional (some e), _ | alternative (some x), _ | body (some x), _ | accessor (some f), _ => by
    rfl
  | exprs es, _ => by
    rw [run, after_list (fun e => [expr e]) (by simp only [Typer.exprs]) fun e es s => by simp only [Typer.exprs]; rfl]
    rw [parts, List.map_eq_flatMap]
    rfl
  | arguments as, _ => by
    rw [run, after_list (fun a => [expr a.value]) (by simp only [Typer.arguments])
      fun a as s => by cases a; simp only [Typer.arguments]; rfl]
    rw [parts, List.map_eq_flatMap]
    rfl
  | entries es, _ => by
    rw [run, after_list (fun e => [expr e.key, expr e.value]) (by simp only [Typer.entries])
      fun e es s => by cases e; simp only [Typer.entries]; rfl]
    rfl
  | cases cs, _ => by
    rw [run, after_list (fun c => [arm c]) (by simp only [Typer.cases])
      fun c cs s => by cases c; simp only [Typer.cases]; rfl]
    rw [parts, List.map_eq_flatMap]
    rfl
  | stmts xs, _ => by
    rw [run, after_list (fun x => [stmt x]) (by simp only [Typer.stmts]) fun x xs s => by simp only [Typer.stmts]; rfl]
    rw [parts, List.map_eq_flatMap]
    rfl
  | params ps, _ => by
    rw [run, after_list (fun p => [param p]) (by simp only [Typer.params])
      fun p ps s => by cases p; simp only [Typer.params]; rfl]
    rw [parts, List.map_eq_flatMap]
    rfl
  | members ms, _ => by
    rw [run, after_list (fun m => [exprs m.attributes, memberKind m.kind]) (by simp only [Typer.members])
      fun m ms s => by cases m; simp only [Typer.members]; rfl]
    rfl
  | arm ⟨condition, b⟩, _ => by
    rfl
  | stmt x, _ => stmt_table s x
  | function ⟨_, ps, b, _, attributes, _⟩, _ => by
    rfl
  | param ⟨name, type, default, promoted, pos⟩, _ => by
    rfl
  | memberKind kind, _ => by
    cases kind <;> simp only [run, Typer.memberKind] <;> rfl
  | loopNames key value target, _ => congrArg TypeTable.mk (bindLoop_ran key value target s).table
  | typed type, _ => (mapM_resolve_idle type s).2.2.2.1
  | caught name type, _ => congrArg TypeTable.mk (bindCaught_ran name type s).table
  | classBody _, _ | self _, _ | declared _ _, _ => rfl

theorem parts_suffix (c : Code) (s : Typing) :
    (runAll c.parts (c.opened s)).table.entries <:+ (after c.run s).table.entries := by
  by_cases h : ∃ e, c = expr e
  · obtain ⟨⟨id, pos, kind⟩, rfl⟩ := h
    have kept : (runAll (ofKind kind) s).table.entries = (after (exprKind pos kind) s).table.entries := by
      rw [exprKind_table]
    have recorded : (after (expr ⟨id, pos, kind⟩).run s).table.entries =
        (id, ((exprKind pos kind).run s).1) :: (after (exprKind pos kind) s).table.entries := by
      rfl
    rw [recorded, ← kept]
    exact List.suffix_cons _ _
  · have kept := congrArg TypeTable.entries (parts_table s c fun e he => h ⟨e, he⟩)
    exact ⟨[], kept.symm⟩

end Code

/-! ## Points -/

namespace Point

open Typer

variable {program : List Stmt} {P Q : Point}

theorem opened_typing (P : Point) : P.opened.typing = P.code.opened P.typing := by
  unfold Point.opened Code.opened
  cases P.code.opening <;> rfl

theorem Sound.runAll_suffix (h : P.Sound program) (cs : List Code) :
    P.typing.table.entries <:+ (Code.runAll cs P.typing).table.entries := by
  induction cs generalizing P with
  | nil => exact List.suffix_refl _
  | cons c cs ih =>
    obtain ⟨-, new, entries, -⟩ := c.replays h.alike
    exact List.IsSuffix.trans ⟨new, entries.symm⟩ (ih (h.past c))

theorem Sound.along_suffix (h : P.Sound program) (cs : List Code) (hQ : Q ∈ P.along cs) :
    (after Q.code.run Q.typing).table.entries <:+ (Code.runAll cs P.typing).table.entries := by
  induction cs generalizing P with
  | nil => cases hQ
  | cons c cs ih =>
    rcases List.mem_cons.mp hQ with rfl | hQ
    · exact (h.past c).runAll_suffix cs
    · exact ih (h.past c) hQ

end Point

section
variable {program : List Stmt} {context : Context} (blank : context.Blank) {P : Point}
include blank

theorem Reached.entries_suffix (h : Reached program context P) :
    (Typer.after P.code.run P.typing).table.entries <:+ (typeProgram program context).table.entries := by
  induction h with
  | start => exact List.suffix_refl _
  | @part P Q reached mem ih =>
    have inner := (reached.sound blank).opened.along_suffix _ mem
    rw [P.opened_typing] at inner
    exact (inner.trans (P.code.parts_suffix P.typing)).trans ih

theorem table_get?_of_reached {source file : String} {nextId next : Nat}
    (read : (readSource source file nextId).result = .ok (program, next)) (h : Reached program context P) {e : Expr}
    (code : P.code = .expr e) :
    (typeProgram program context).table.get? e.id = some ((Typer.expr e).run P.typing).1 := by
  have recorded : (e.id, ((Typer.expr e).run P.typing).1) ∈ (Typer.after P.code.run P.typing).table.entries := by
    obtain ⟨id, pos, kind⟩ := e
    rw [code]
    exact List.mem_cons_self
  have mem := (h.entries_suffix blank).subset recorded
  rw [typeProgram_entries] at mem
  obtain ⟨v, visited, entry⟩ := List.mem_map.mp (List.mem_reverse.mp mem)
  obtain ⟨id, type⟩ := Prod.mk.inj entry
  rw [← id, ← type]
  exact table_get?_of_mem_visits read blank visited

end

end PhaseLang
