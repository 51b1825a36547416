import PhaseLang.Compile
import PhaseLang.Proofs.Typing.Records

/-!
# Variables and functions

Whether a plain name is written as a variable or as a function is decided by the type of its
innermost binding: it stands for a function if it is bound to a function of that very name, or
to something unknown while the program imports a function of that name somewhere. How the
binding was made plays no part.
-/

namespace PhaseLang

theorem Visit.type_of_ident {v : Visit} (blank : v.typing.context.Blank) {n : String}
    (plain : v.expr.kind = .ident n) : v.type = (v.typing.scopes.resolve n).getD .any := by
  obtain ⟨⟨id, pos, kind⟩, place, typing⟩ := v
  simp only at plain
  subst plain
  exact (Typer.named_evals n pos typing rfl blank).1

theorem BindingKind.isVariable_of_isFunction (k : BindingKind) (h : k.isFunction = true) : k.isVariable = false := by
  cases k <;> simp_all [BindingKind.isFunction, BindingKind.isVariable]

/-- Whether something of a type is taken for the function of a name. -/
def Ty.StandsFor (n : String) (imported : List String) (type : Ty) : Prop :=
  (∃ f, type = .func f ∧ f.name = n) ∨ ∃ path, type = .unknown (some path) ∧ n ∈ imported

theorem FunctionNames.contains_iff {names : FunctionNames} {id : Nat} {type : Ty} {n : String}
    (found : names.types.get? id = some type) :
    names.contains id n = true ↔ type.StandsFor n names.imported := by
  unfold FunctionNames.contains Ty.StandsFor
  rw [found]
  split <;> simp_all

instance (type : Ty) (n : String) (imported : List String) : Decidable (type.StandsFor n imported) :=
  decidable_of_iff (FunctionNames.contains ⟨⟨[(0, type)]⟩, imported⟩ 0 n = true) (FunctionNames.contains_iff rfl)

namespace Php

def WritesFunction (scene : Scene) (e : PhaseLang.Expr) (n : String) : Prop :=
  (∀ progress, ((Lower.expr scene e).run progress).1 = .functionRef n) ∧
    ∃ name, Lower.callForm scene e = .function name

def WritesVariable (scene : Scene) (e : PhaseLang.Expr) (n : String) : Prop :=
  (∀ progress, ((Lower.expr scene e).run progress).1 = .var n) ∧
    ∀ name, Lower.callForm scene e ≠ .function name

section
variable {scene : Scene} {e : PhaseLang.Expr} {n : String}

theorem writesFunction_of_contains (plain : e.kind = .ident n) (h : scene.names.contains e.id n = true) :
    WritesFunction scene e n := by
  obtain ⟨id, pos, kind⟩ := e
  simp only at plain h
  subst plain
  refine ⟨fun progress => ?_, n, by simp [Lower.callForm, h]⟩
  simp only [Lower.expr, h]
  rfl

theorem writesVariable_of_not_contains (plain : e.kind = .ident n)
    (h : scene.names.contains e.id n = false) : WritesVariable scene e n := by
  obtain ⟨id, pos, kind⟩ := e
  simp only at plain h
  subst plain
  refine ⟨fun progress => ?_, fun name => ?_⟩
  · simp only [Lower.expr, h]
    rfl
  · simp only [Lower.callForm, h, Bool.false_eq_true, if_false]
    split <;> simp

theorem writesVariable_iff_not_writesFunction (plain : e.kind = .ident n) :
    WritesVariable scene e n ↔ ¬WritesFunction scene e n := by
  refine ⟨fun h h' => ?_, fun h => writesVariable_of_not_contains plain ?_⟩
  · obtain ⟨name, form⟩ := h'.2
    exact h.2 name form
  · exact Bool.eq_false_iff.mpr fun contains => h (writesFunction_of_contains plain contains)

theorem writesFunction_iff_contains (plain : e.kind = .ident n) :
    WritesFunction scene e n ↔ scene.names.contains e.id n = true := by
  refine ⟨fun h => ?_, writesFunction_of_contains plain⟩
  by_contra absent
  exact (writesVariable_iff_not_writesFunction plain).mp
    (writesVariable_of_not_contains plain (Bool.eq_false_iff.mpr absent)) h

end

/-- A name whose innermost binding is a variable is written as one, and what is written as a
function is bound to one. -/
def WritesAsBound (scene : Scene) (v : Visit) (n : String) : Prop :=
  (∀ k, v.place.kindOf? n = some k → k.isVariable = true → WritesVariable scene v.expr n) ∧
    (WritesFunction scene v.expr n → ∃ k, v.place.kindOf? n = some k ∧ k.isFunction = true)

theorem writesFunction_iff_standsFor {source file : String} {nextId next : Nat}
    {program : List PhaseLang.Stmt} (read : (readSource source file nextId).result = .ok (program, next))
    {context : Context} (blank : context.Blank) {v : Visit} (visited : v ∈ visits program context)
    {n : String} (plain : v.expr.kind = .ident n) (typed : Bool) (ns : List String) :
    WritesFunction ⟨typed, .ofProgram program context, ns⟩ v.expr n ↔
      ∃ type, v.typing.scopes.resolve n = some type ∧ type.StandsFor n (importedFunctions program) := by
  have entry := table_get?_of_mem_visits read blank visited
  have type := Visit.type_of_ident ((visits_keeps program blank).ready v visited).blank plain
  rw [writesFunction_iff_contains plain, FunctionNames.contains_iff entry, type]
  cases v.typing.scopes.resolve n with
  | some type => simp [FunctionNames.ofProgram]
  | none => simp [Ty.StandsFor]

theorem writesAsBound_iff_of_plain {scene : Scene} {v : Visit} {n : String} (plain : v.expr.kind = .ident n) :
    WritesAsBound scene v n ↔
      (∃ k, v.place.kindOf? n = some k ∧ k.isFunction = true) ∨ ¬WritesFunction scene v.expr n := by
  unfold WritesAsBound
  rw [writesVariable_iff_not_writesFunction plain]
  constructor
  · intro h
    by_cases w : WritesFunction scene v.expr n
    · exact .inl (h.2 w)
    · exact .inr w
  · rintro (⟨k, bound, function⟩ | h)
    · refine ⟨fun k' bound' isVariable => ?_, fun _ => ⟨k, bound, function⟩⟩
      obtain rfl : k = k' := Option.some.inj (bound.symm.trans bound')
      simp [k.isVariable_of_isFunction function] at isVariable
    · exact ⟨fun _ _ _ => h, fun w => absurd w h⟩

/-- A name is written as a function if and only if its innermost binding has the type of a
function of that name, or an unknown type where the program imports such a function; it is
written as it was bound except where that binding was not made by a function or its import. -/
theorem writesAsBound_iff {source file : String} {nextId next : Nat} {program : List PhaseLang.Stmt}
    (read : (readSource source file nextId).result = .ok (program, next)) {context : Context}
    (blank : context.Blank) {v : Visit} (visited : v ∈ visits program context) {n : String}
    (plain : v.expr.kind = .ident n) (typed : Bool) (ns : List String) :
    v.place.Mirrors v.typing.scopes ∧
    (WritesFunction ⟨typed, .ofProgram program context, ns⟩ v.expr n ↔
      ∃ type, v.typing.scopes.resolve n = some type ∧ type.StandsFor n (importedFunctions program)) ∧
    (WritesAsBound ⟨typed, .ofProgram program context, ns⟩ v n ↔
      (∃ k, v.place.kindOf? n = some k ∧ k.isFunction = true) ∨
      ¬∃ type, v.typing.scopes.resolve n = some type ∧ type.StandsFor n (importedFunctions program)) := by
  have writes := writesFunction_iff_standsFor read blank visited plain typed ns
  refine ⟨(visits_faithful program context).mirrors v visited, writes, ?_⟩
  rw [writesAsBound_iff_of_plain plain, writes]

/-- A parameter of the name of a function is written as a variable. -/
theorem writesAsBound_iff_shadowed :
    let program := programOf "function g(x) \x7b return g(x) \x7d\nfunction f(g: Int) \x7b return g \x7d"
    ∃ v ∈ visits program {}, v.expr.ident? = some "g" ∧ v.place.kindOf? "g" = some .param ∧
      WritesAsBound ⟨true, .ofProgram program {}, []⟩ v "g" := by
  intro program
  obtain ⟨next, read⟩ := exists_read_programOf
    "function g(x) \x7b return g(x) \x7d\nfunction f(g: Int) \x7b return g \x7d" (by decide +kernel)
  have found : ((visits program {}).any fun v =>
      v.expr.ident? == some "g" && v.place.kindOf? "g" == some .param &&
        (v.typing.scopes.resolve "g").all fun type => !type.StandsFor "g" (importedFunctions program)) = true := by
    decide +kernel
  obtain ⟨v, visited, parts⟩ := List.any_eq_true.mp found
  simp only [Bool.and_eq_true, beq_iff_eq, Option.all_eq_true, Bool.not_eq_true', decide_eq_false_iff_not] at parts
  obtain ⟨⟨name, param⟩, other⟩ := parts
  obtain ⟨_, _, plain⟩ := Expr.eq_of_ident? name
  have written := writesAsBound_iff read (Context.blank_empty 0) visited (congrArg Expr.kind plain) true []
  refine ⟨v, visited, name, param, written.2.2.mpr (.inr ?_)⟩
  rintro ⟨type, bound, stands⟩
  exact other type bound stands

/-- A parameter of the name of an imported function is written as the function. -/
theorem parameter_written_as_import :
    let source := "namespace N\nuse Foo::bar\nfunction f(bar: Int) \x7b return bar \x7d"
    (compile source "main.phs" 8 {}).outcome.php? =
      some ("<?php\nnamespace N \x7b\n    use function Foo\\bar;\n    function f(int $bar)\n    \x7b\n" ++
        "        return bar(...);\n    \x7d\n\x7d\n") ∧
    ((visits (programOf source) {}).any fun v =>
      v.expr.ident? == some "bar" && v.place.kindOf? "bar" == some .param) = true := by
  decide +kernel

end Php

end PhaseLang
