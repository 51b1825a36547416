import PhaseLang.Compile
import PhaseLang.Proofs.Php.Making
import PhaseLang.Proofs.Typing.Invariants
import PhaseLang.Proofs.Typing.Surfaces

/-!
# Sessions

A session compiles one source after the other under the same context. If the loader finds nothing
but classes and functions, then whatever was compiled before, a name that is known means a class, a
function or nothing but itself.
-/

namespace PhaseLang

/-- What a name can mean: a declaration, or nothing but the name. -/
def Ty.Answers (key : String) (t : Ty) : Prop := t.IsDeclaration ∨ t = .builtin key

/-! ## Loaders -/

/-- Everything that the loader finds is a declaration. -/
def Loader.Declares (loader : Loader) : Prop :=
  ∀ name nextId t, (loader.load name nextId).result = .ok (some t) → t.IsDeclaration

theorem Loader.declares_files (root extension : String) (read : Files.Reader) :
    Loader.Declares { root, extension, read } := by
  intro name nextId t found
  have ofFile : ∀ path, (Loading.ofFile read path name nextId).result = .ok (some t) → t.IsDeclaration := by
    intro path found
    unfold Loading.ofFile at found
    split at found
    · simp at found
    · simp at found
    · dsimp only at found
      split at found
      · simp at found
      · exact Surface.isDeclaration_of_declared? (Except.ok.inj found)
  exact ofFile _ found

/-! ## Contexts -/

structure Context.Provides (loader : Option Loader) (c : Context) : Prop where
  loader : c.loader = loader
  answers : ∀ key t, c.types.get? key = some t → t.Answers key

namespace Context.Provides

variable {loader : Option Loader} {c : Context}

theorem fresh : Context.Provides loader { loader } := ⟨rfl, nofun⟩

theorem lasting (declares : ∀ l ∈ loader, l.Declares) : Context.Lasting (Context.Provides loader) := by
  refine Context.lasting_of_fetch fun c new _ h => ⟨h.loader, fun key t found => ?_⟩
  simp only [Context.fetch, Bindings.get?_insert] at found
  split at found
  · rename_i same
    rw [← same]
    obtain rfl := Option.some.inj found
    split
    · rename_i t loaded
      split at loaded
      · simp at loaded
      · rename_i l hl
        exact .inl (declares l (h.loader.symm.trans hl) _ _ t loaded)
    · exact .inr rfl
  · exact h.answers key t found

theorem addTypes (h : c.Provides loader) {surface : Surface}
    (declared : ∀ key t, surface.at? key = some t → t.IsDeclaration) : (c.addTypes surface).Provides loader where
  loader := h.loader
  answers key t found := by
    rw [c.addTypes_get?] at found
    rcases Option.or_eq_some_iff.mp found with own | ⟨_, before⟩
    · exact .inl (declared key t own)
    · exact h.answers key t before

end Context.Provides

namespace Php

section
variable {I : Progress → Prop} (lasting : Lasting I)
include lasting

theorem making_any (names : FunctionNames) :
    Making I names (fun _ => True) (fun _ => True) (fun _ _ => True) fun _ => True where
  lasting := lasting
  sum _ _ _ _ := trivial
  made _ _ := ⟨trivial, trivial⟩
  read _ := trivial
  readIndex _ := trivial
  added _ := trivial
  bound _ _ := trivial
  loop _ _ := trivial

/-- Lowering does nothing to its state but look names up. -/
theorem stmts_lasting (scene : Scene) (ss : List PhaseLang.Stmt) : Ensures I (Lower.stmts scene ss) fun _ => True :=
  (stmts_makes (making_any lasting scene.names) rfl ss fun _ _ => trivial).mono fun _ _ => trivial

theorem expr_lasting (scene : Scene) (e : PhaseLang.Expr) : Ensures I (Lower.expr scene e) fun _ => True :=
  (expr_made (making_any lasting scene.names) rfl e fun _ _ => trivial).mono fun _ _ => trivial

end

end Php

/-! ## Sessions -/

/-- Where lowering a program starts. -/
def Php.Scene.start (program : List PhaseLang.Stmt) (context : Context) (version : Nat) : Scene where
  typed := decide (8 ≤ version)
  names := .ofProgram program context

theorem compile_of_read {source file : String} {context : Context} {program : List Stmt} {nextId : Nat} (version : Nat)
    (read : (readSource source file context.nextId).result = .ok (program, nextId)) :
    let typed := typeProgram program { context with nextId }
    let lowered := (Php.Lower.stmts (.start program { context with nextId } version) program).run ⟨typed.context, []⟩
    (compile source file version context).outcome.php? = some (Php.Printer.program lowered.1) ∧
      (compile source file version context).context = lowered.2.context := by
  intro typed lowered
  unfold compile
  dsimp only
  rw [read]
  dsimp only
  refine ⟨?_, rfl⟩
  split
  · rfl
  · rfl

theorem compile_of_violation {source file : String} {context : Context} {e : SyntaxError} (version : Nat)
    (violated : (readSource source file context.nextId).result = .error e) :
    (compile source file version context).context = context := by
  unfold compile
  dsimp only
  rw [violated]

/-- The contexts that a session comes to. -/
inductive Session (loader : Option Loader) : Context → Prop
  | fresh : Session loader { loader }
  | compiled {c : Context} (h : Session loader c) (source file : String) (version : Nat) :
      Session loader (compile source file version c).context

section
variable {loader : Option Loader} (declares : ∀ l ∈ loader, l.Declares) {c : Context}
include declares

theorem Context.Provides.typeProgram {source file : String} {nextId next : Nat} {program : List Stmt}
    (read : (readSource source file nextId).result = .ok (program, next)) (h : c.Provides loader) :
    (typeProgram program c).context.Provides loader := by
  have kept := (Typer.Invariant.of_lasting (lasting declares)).stmts (fits_nodes (Cited.ofStmts program))
    (s := .start program c) h
  rw [typeProgram_context]
  refine kept.addTypes fun key t found => ?_
  rw [Surface.at?_ofProgram (readSource_spelled read)] at found
  exact Surface.isDeclaration_of_get? found

theorem Context.Provides.compile (h : c.Provides loader) (source file : String) (version : Nat) :
    (compile source file version c).context.Provides loader := by
  cases read : (readSource source file c.nextId).result with
  | error e =>
    rw [compile_of_violation version read]
    exact h
  | ok out =>
    obtain ⟨program, nextId⟩ := out
    have reading : Context.Provides loader { c with nextId } := ⟨h.loader, h.answers⟩
    rw [(compile_of_read version read).2]
    exact (Php.stmts_lasting (Php.lasting_of_context (lasting declares)) _ program ⟨_, []⟩
      (reading.typeProgram declares read)).2

theorem Session.provides (h : Session loader c) : c.Provides loader := by
  induction h with
  | fresh => exact .fresh
  | compiled _ source file version ih => exact ih.compile declares source file version

end

end PhaseLang
