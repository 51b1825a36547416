import PhaseLang.Compile
import PhaseLang.Proofs.Mentions
import PhaseLang.Proofs.Typing.Records

/-!
# Captures follow the scopes

A closure takes from around it the names that it uses before it binds them, with one flat
scope for all of its code. Typing looks names up scope by scope. The two agree on a use whose
binding stands outside the closure exactly if the code of the closure does not bind the name
before every use of it, in another scope.
-/

namespace PhaseLang

variable {names : FunctionNames} {n : String}

/-! ## Closures -/

namespace Closure

def captures (names : FunctionNames) : Closure → List String
  | lambda f => capturesOf names f
  | arm body => capturesIn names body

theorem mem_captures {g : Closure} :
    n ∈ g.captures names ↔ n ∈ Mention.free (g.mentions names) := by
  cases g <;> exact Iff.rfl

def params : Closure → List String
  | lambda f => f.params.map (·.name)
  | arm _ => []

/-- The code of a closure, in the order in which typing goes through it. -/
def pieces : Closure → List Code
  | lambda f => f.pieces .typed
  | arm body => Code.Route.typed.pieces (.stmts body)

theorem mentions_eq (names : FunctionNames) (g : Closure) :
    g.mentions names = g.params.map .bind ++ Captures.ofPieces names g.pieces := by
  cases g with
  | lambda f => exact Captures.ofFunc_eq names f
  | arm body => exact Captures.ofCode_pieces (.stmts body)

theorem use_mem_mentions {g : Closure} :
    .use n ∈ g.mentions names ↔ ∃ d ∈ g.pieces, d.Uses names n := by
  simp [mentions_eq, Captures.ofPieces, Code.uses_iff]

/-- The name is a parameter, or the code binds it before every use of it. -/
def BindsFirst (names : FunctionNames) (n : String) (g : Closure) : Prop :=
  n ∈ g.params ∨ ∃ before b after, g.pieces = before ++ b :: after ∧ n ∈ b.binds ∧ ∀ d ∈ before, ¬ d.Uses names n

theorem first?_eq_bind_iff {g : Closure} :
    Mention.first? n (g.mentions names) = some (.bind n) ↔ g.BindsFirst names n := by
  unfold BindsFirst
  simp only [Code.uses_iff]
  rw [mentions_eq, Mention.first?_append, Mention.first?_binds, ← Captures.first?_ofPieces_bind]
  split <;> simp [*]

end Closure

/-! ## Closures around a use -/

/-- A closure around a place, and whether a namespace stands between. -/
structure Enclosing where
  code : Closure
  crossed : Bool

namespace Place

/-- The closures around a place that stand inside the innermost binding of a name, and not
around a declaration that the place is in. -/
def closuresInside (n : String) (crossed : Bool) : Place → List Enclosing
  | [] => []
  | scope :: rest =>
    if scope.bindings.has n then []
    else match scope.opener with
      | .block => closuresInside n (crossed || scope.hidden) rest
      | .closure g => ⟨g, crossed || scope.hidden⟩ :: closuresInside n (crossed || scope.hidden) rest
      | .declaration => []

end Place

/-- A closure does not bind the name before it uses it. Behind a namespace it does not see the use, and so has
another. -/
def Enclosing.LeavesFree (names : FunctionNames) (n : String) (g : Enclosing) : Prop :=
  n ≠ "this" ∧ ¬ g.code.BindsFirst names n ∧ (g.crossed = true → ∃ d ∈ g.code.pieces, d.Uses names n)

theorem Enclosing.mem_captures_iff {g : Enclosing}
    (used : g.crossed = false → .use n ∈ g.code.mentions names) :
    n ∈ g.code.captures names ↔ g.LeavesFree names n := by
  rw [Closure.mem_captures, LeavesFree, ← Closure.first?_eq_bind_iff, ← Closure.use_mem_mentions]
  cases hc : g.crossed with
  | false => simp [Mention.mem_free_iff_of_mem (used hc)]
  | true =>
    by_cases hu : .use n ∈ g.code.mentions names
    · simp [Mention.mem_free_iff_of_mem hu, hu]
    · refine iff_of_false (fun h => hu ?_) fun h => hu (h.2.2 rfl)
      exact List.mem_of_find?_eq_some (Mention.mem_free_iff.mp h).2

theorem captured_inside_iff :
    ∀ (p : Place) (crossed : Bool), (crossed = false → Carries names n p) →
      ((∀ g ∈ p.closuresInside n crossed, n ∈ g.code.captures names) ↔
        ∀ g ∈ p.closuresInside n crossed, g.LeavesFree names n)
  | [], _, _ => by simp [Place.closuresInside]
  | scope :: rest, crossed, h => by
    have visible (hh : (crossed || scope.hidden) = false) := by
      simp only [Bool.or_eq_false_iff] at hh
      exact h hh.1 hh.2
    unfold Place.closuresInside
    split
    · simp
    · split
      · rename_i block
        exact captured_inside_iff rest _ fun hh => (visible hh).2 (block ▸ trivial)
      · rename_i g closure
        simp only [List.forall_mem_cons]
        have one : n ∈ g.captures names ↔ Enclosing.LeavesFree names n ⟨g, crossed || scope.hidden⟩ :=
          Enclosing.mem_captures_iff (g := ⟨g, crossed || scope.hidden⟩) fun hh => (visible hh).1 g closure
        rw [← one]
        -- the closures further out see a use only if this one captures the name
        refine and_congr_right fun captured => captured_inside_iff rest _ fun hh => (visible hh).2 ?_
        rw [closure]
        cases g with
        | lambda f => exact captured
        | arm body => trivial
      · simp

/-- All closures that a use looks through for its binding capture the name if and only if the code of none
of them binds it before every use of it. -/
theorem captured_iff_leavesFree {program : List Stmt} {context : Context} (names : FunctionNames)
    {v : Visit} {n : String} (visited : v ∈ visits program context) (plain : v.expr.kind = .ident n)
    (isVariable : names.contains v.expr.id n = false) :
    v.place.Mirrors v.typing.scopes ∧
    ((∀ g ∈ v.place.closuresInside n false, n ∈ g.code.captures names) ↔
      ∀ g ∈ v.place.closuresInside n false, g.LeavesFree names n) := by
  refine ⟨(visits_faithful program context).mirrors v visited, captured_inside_iff v.place false fun _ => ?_⟩
  exact (visits_tour names program context).traced (fun _ _ _ => ⟨nofun, fun _ => trivial⟩) v visited n plain isVariable

def Visit.isNestedUse (names : FunctionNames) (n : String) (depth : Nat) (v : Visit) : Bool :=
  v.expr.ident? == some n && !names.contains v.expr.id n &&
    (v.place.closuresInside n false).length == depth

/-- Two closures around a use, and neither of them binds the name first. -/
theorem captured_iff_leavesFree_nested :
    let program := programOf "var x = 1\nvar f = \x7b |c|\n  if (c) \x7b return \x7b x \x7d \x7d\n\x7d"
    let names := FunctionNames.ofProgram program {}
    ∃ v ∈ visits program {}, v.isNestedUse names "x" 2 ∧
      (∀ g ∈ v.place.closuresInside "x" false, "x" ∈ g.code.captures names) ∧
      ∀ g ∈ v.place.closuresInside "x" false, ¬ g.code.BindsFirst names "x" := by
  intro program names
  have found : ((visits program {}).any fun v => v.isNestedUse names "x" 2 &&
      (v.place.closuresInside "x" false).all fun g => (g.code.captures names).contains "x") = true := by decide +kernel
  obtain ⟨v, visited, both⟩ := List.any_eq_true.mp found
  obtain ⟨nested, captures⟩ := Bool.and_eq_true_iff.mp both
  have captured : ∀ g ∈ v.place.closuresInside "x" false, "x" ∈ g.code.captures names := by simpa using captures
  have parts := nested
  simp only [Visit.isNestedUse, Bool.and_eq_true, beq_iff_eq, Bool.not_eq_true'] at parts
  obtain ⟨_, _, plain⟩ := Expr.eq_of_ident? parts.1.1
  have free := (captured_iff_leavesFree names visited (congrArg Expr.kind plain) parts.1.2).2.mp captured
  exact ⟨v, visited, nested, captured, fun g mem => (free g mem).2.1⟩

/-- A variable of a branch keeps the closure from capturing the one around it. -/
theorem branch_variable_not_captured :
    let source := "var x = 1\nvar f = \x7b |c|\n  if (c) \x7b var x = 2 \x7d\n  return x\n\x7d"
    let names := FunctionNames.ofProgram (programOf source) {}
    (compile source "main.phs" 8 {}).outcome.php? = some ("<?php\n$x = 1;\n$f = function ($c = null) \x7b\n" ++
      "    if ($c)\n    \x7b\n        $x = 2;\n    \x7d\n    return $x;\n\x7d;\n") ∧
    ((visits (programOf source) {}).any fun v => v.isNestedUse names "x" 1 &&
      v.place.kindOf? "x" == some .var &&
      (v.place.closuresInside "x" false).any fun g => !(g.code.captures names).contains "x") = true := by
  decide +kernel

end PhaseLang
