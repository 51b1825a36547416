import PhaseLang.Compile
import PhaseLang.Proofs.Php.Sides
import PhaseLang.Proofs.Typing.Records

/-!
# Lowering that asks for types

A `Strict` lowering asks the table for the type of every expression that it comes to, and stops
if there is none. Typing visits all that lowering comes to, so with the table of the program it
never stops.
-/

namespace PhaseLang.Php

abbrev Strict := OptionT Lower

namespace Strict

open Lower

def ask (scene : Scene) (id : Nat) : Strict Unit := guard (scene.names.types.get? id).isSome

instance : Lowering Strict where
  visit scene id run := do
    ask scene id
    run

/-- A strict lowering that never stops, and does what another one does. -/
def following : Pairing Strict where
  Rel m n P := ∀ s, m.run.run s = (some (n.run s).1, (n.run s).2) ∧ P (n.run s).1
  pure h := fun _ => ⟨rfl, h⟩
  bind {_ _ _ _ m n f g} h hf := by
    intro s
    obtain ⟨same, ha⟩ := h s
    have next := hf _ ha (n.run s).2
    refine ⟨?_, next.2⟩
    rw [OptionT.run_bind, Option.elimM, StateT.run_bind, same]
    exact next.1

/-- An expression that is visited has a type in the table. -/
def Typed (types : TypeTable) (v : Visit) : Prop := (types.get? v.expr.id).isSome

theorem closing (names : FunctionNames) : Closing following .refl names names (Typed names.types) (fun _ => True)
    (fun _ => True) (fun _ _ => True) .any false where
  lawful := Redraw.lawful_refl
  own _ := trivial
  contains _ _ := rfl
  callForm _ := rfl
  visit {e _ _ c _ _ _} typed h := by
    have asked : ask (c.under names) e.id = pure () := by
      unfold ask
      rw [show (names.types.get? e.id).isSome = true from typed]
      rfl
    show following.Rel (ask (c.under names) e.id >>= fun _ => _) _ _
    rw [asked, pure_bind]
    exact h
  isString _ := fun _ => ⟨rfl, trivial⟩
  sum _ _ := fun _ => ⟨rfl, fun _ => trivial⟩
  accessTo _ := fun _ => ⟨rfl, trivial⟩
  made _ _ _ := ⟨trivial, trivial⟩
  read _ := trivial
  readIndex _ := trivial
  added _ _ := trivial
  bound _ _ _ := trivial
  loop _ _ _ _ := trivial
  stmt _ := trivial
  text _ := trivial
  literal _ := trivial

theorem typed_visits (program : List PhaseLang.Stmt) (context : Context) :
    PhaseLang.Fits (Typed (typeProgram program context).table) (visits program context) := by
  intro v visited
  have entry : v.entry ∈ (typeProgram program context).table.entries := by
    rw [typeProgram_entries]
    exact List.mem_reverse.mpr (List.mem_map_of_mem visited)
  rw [Typed, TypeTable.get?, Option.isSome_iff_ne_none]
  intro none
  have other := List.lookup_eq_none_iff.mp none _ entry
  simp [Visit.entry] at other

end Strict

def generateStrict (program : List PhaseLang.Stmt) (types : TypeTable) (context : Context) (version : Nat) :
    Option Generated :=
  let scene : Scene :=
    { typed := decide (8 ≤ version)
      names := { types, imported := importedFunctions program } }
  let (php, progress) := (Lower.stmts (L := Strict) scene program).run.run { context }
  php.map fun php => ⟨Printer.program php, progress.context, progress.diagnostics⟩

/-- Every expression that is written was typed: it does no harm to ask for the types. -/
theorem generateStrict_eq_some (program : List PhaseLang.Stmt) (context current : Context) (version : Nat) :
    generateStrict program (typeProgram program context).table current version =
      some (generate program (typeProgram program context).table current version) := by
  let names : FunctionNames := ⟨(typeProgram program context).table, importedFunctions program⟩
  have follows := stmts_self (Strict.closing names) (c := ⟨decide (8 ≤ version), names, []⟩) program
    (Strict.typed_visits program context) fun _ _ => Bool.noConfusion
  have same := (follows ⟨current, []⟩).1
  unfold generateStrict
  dsimp only
  rw [same]
  rfl

example : (generateStrict [⟨default, .expr ⟨0, default, .this⟩⟩] {} {} defaultVersion).isNone = true := by decide

end PhaseLang.Php
