import PhaseLang.Proofs.Grammar.Phrases
import PhaseLang.Proofs.Php.Sides

/-!
# Strings and brackets in the PHP of a program

What lowering makes of a tree is neat if the wording of the tree is clean, and the wording of what was
read from a source is. So a reader gets through the PHP of every program.
-/

namespace PhaseLang

namespace Php

theorem closing_neat (names : FunctionNames) : Closing (ensuring fun _ => True) .refl names names (fun _ => True)
    (fun _ => True) (fun _ => True) (fun _ _ => True) neat true where
  lawful := Redraw.lawful_refl
  own _ := trivial
  contains _ _ := rfl
  callForm _ := rfl
  visit _ h := h
  isString _ := fun _ _ => ⟨trivial, trivial⟩
  sum _ _ := fun _ _ => ⟨fun _ => trivial, trivial⟩
  accessTo _ := fun _ _ => ⟨trivial, trivial⟩
  made _ _ parts := ⟨trivial, Expr.neat_of_parts parts⟩
  read _ := trivial
  readIndex _ := trivial
  added _ parts := Expr.neat_of_parts parts
  bound _ _ h := Expr.neat_of_parts ⟨h, Expr.neat_of_parts (isNumber_toString 1)⟩
  loop _ _ h key := Expr.neat_of_parts ⟨Expr.neat_of_parts key, h⟩
  stmt := Stmt.neat_of_parts
  text h := h rfl
  literal h := h rfl

theorem stmts_neat {scene : Scene} {ss : List PhaseLang.Stmt} (clean : Worded.Clean (Worded.ofStmts ss)) :
    Gives (Lower.stmts scene ss) fun ps => ∀ p ∈ ps, p.Neat := by
  have made := stmts_self (closing_neat scene.names) (c := scene) (p := []) (s := .start [] {}) ss (fun _ _ => trivial)
    fun w hw _ => clean w hw
  exact fun s => (made s trivial).1

/-! ## The PHP of a source -/

/-- A reader gets through the PHP of every program that was read from a source: at its end every string is
closed and every bracket, and there is no bare dollar in a string. -/
theorem generate_balanced {source file : String} {nextId next : Nat} {program : List PhaseLang.Stmt}
    (read : (readSource source file nextId).result = .ok (program, next)) (types : TypeTable) (context : Context)
    (version : Nat) : Reader.start.read (generate program types context version).php.toList = some .start :=
  balanced_program (stmts_neat (readSource_clean read) _)

theorem generate_balanced_escapes :
    let source := "var a = '(\"$'\nvar b = \"]$\x7b[a, 'it\\'s']\x7d\\\\\"\nb.cut(0)"
    let program := programOf source
    let php := (generate program (typeProgram program {}).table {} 8).php
    (readSource source "" 0).result.isOk = true ∧
    php = "<?php\n$a = \"(\\\"\\$\";\n" ++
      "$b = \"]\" . (new \\Std\\PhaseArray([$a, \"it\\'s\"])) . \"\\\\\";\n" ++
      "\\Std\\PhaseString::wrap($b)->cut(0);\n" ∧
    Reader.start.read php.toList = some .start := by
  intro source program php
  have readable : (readSource source "" 0).result.isOk = true := by decide +kernel
  obtain ⟨next, read⟩ := exists_read_programOf source readable
  exact ⟨readable, by decide +kernel, generate_balanced read _ {} 8⟩

end Php

end PhaseLang
