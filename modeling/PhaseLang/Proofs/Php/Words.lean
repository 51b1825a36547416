import PhaseLang.Proofs.Captures
import PhaseLang.Proofs.Php.Neat
import PhaseLang.Proofs.Php.Results

/-!
# Texts that lowering writes

The names that closures capture stand in their code. If the wording of a tree is clean, the texts that are
written for it are balanced.
-/

namespace PhaseLang

/-! ## Captured names -/

def Worded.ofCode : Code → List Wording
  | .expr e => ofExpr e
  | .optional e => ofOption e
  | .exprs es => ofExprs es
  | .arguments as => ofArgs as
  | .entries es => ofEntries es
  | .cases cs => ofCases cs
  | .arm c => ofOption c.condition ++ ofStmts c.body
  | .stmt x => ofStmt x
  | .stmts xs => ofStmts xs
  | .alternative x | .body x => ofBody x
  | .params ps => ofParams ps
  | .param p => ofOption p.default
  | .function f => ofFunc f
  | .classBody c => ofClass c
  | .members ms => ofMembers ms
  | .memberKind kind => ofMemberKind kind
  | .accessor f => ofAccessor f
  | _ => []

abbrev Worded.Clean (ws : List Wording) : Prop := Fits Wording.Clean ws

section
variable {A : Wording → Prop}

theorem Worded.fits_part {c d : Code} (mem : d ∈ c.parts) (h : Fits A (ofCode c)) : Fits A (ofCode d) := by
  cases c with
  | expr e =>
    obtain ⟨id, pos, kind⟩ := e
    cases kind with
    | get target field | set target field value =>
      obtain ⟨_, _, _, rfl⟩ | computed := field.ident_or
      · simp only [Code.parts, Code.ofKind, List.mem_cons, List.not_mem_nil, or_false] at mem
        rcases mem with rfl | rfl <;> simp_all [ofCode, ofExpr, ofKind]
      · simp only [Code.parts, Code.ofKind_get computed, Code.ofKind_set computed, List.mem_cons, List.not_mem_nil,
          or_false] at mem
        rcases mem with rfl | rfl | rfl <;> simp_all [ofCode, ofExpr, ofKind]
    | super _ | path _ | this | static | literal _ | ident _ => cases mem
    | _ =>
      simp only [Code.parts, Code.ofKind, List.mem_cons, List.not_mem_nil, or_false] at mem
      rcases mem with rfl | rfl | rfl <;> simp_all [ofCode, ofExpr, ofKind]
  | stmt x =>
    obtain ⟨pos, kind⟩ := x
    cases kind with
    | use _ _ _ | global _ => cases mem
    | _ =>
      simp only [Code.parts, Code.ofStmtKind, List.mem_cons, List.not_mem_nil, or_false] at mem
      rcases mem with rfl | rfl | rfl <;> simp_all [ofCode, ofStmt, ofStmtKind, ofBody]
  | exprs xs | arguments xs | cases xs | stmts xs | params xs =>
    obtain ⟨⟨⟩, found, rfl⟩ := List.mem_map.mp mem
    have each := fits_flatMap.mp (by simpa [ofCode] using h) _ found
    simp_all [ofCode, ofArg, ofCase, ofParam]
  | entries xs | members xs =>
    obtain ⟨⟨⟩, found, last⟩ := List.mem_flatMap.mp mem
    have each := fits_flatMap.mp (by simpa [ofCode] using h) _ found
    simp only [List.mem_cons, List.not_mem_nil, or_false] at last
    rcases last with rfl | rfl <;> simp_all [ofCode, ofEntry]
  | optional x | alternative x | body x | accessor x =>
    obtain ⟨x, mem, rfl⟩ := List.mem_map.mp mem
    simp_all [ofCode]
  | arm x | param x | function x | classBody x =>
    obtain ⟨⟩ := x
    simp only [Code.parts, List.mem_cons, List.not_mem_nil, or_false] at mem
    rcases mem with rfl | rfl | rfl <;> simp_all [ofCode]
  | memberKind kind =>
    cases kind <;> simp only [Code.parts, List.mem_cons, List.not_mem_nil, or_false] at mem
    all_goals
      rcases mem with rfl | rfl <;> simp_all [ofCode]
  | typed _ | loopNames _ _ _ | caught _ _ | self _ | declared _ _ => cases mem

namespace Worded

theorem fits_piece {r : Code.Route} {c d : Code} (h : Fits A (ofCode c)) (mem : d ∈ r.pieces c) :
    Fits A (ofCode d) := by
  induction c using Code.partsInduction with
  | step c ih =>
    rw [Code.Route.pieces_eq, List.mem_append, List.mem_flatMap] at mem
    rcases mem with ⟨e, next, mem⟩ | mem
    · exact ih e (r.inside c next) (fits_part (r.inside c next) h) mem
    · exact List.mem_singleton.mp mem ▸ h

theorem fits_pieces {f : Func} {d : Code} (h : Fits A (ofFunc f)) (mem : d ∈ f.pieces .typed) : Fits A (ofCode d) := by
  obtain ⟨_, ps, body, _, _, _⟩ := f
  rcases List.mem_append.mp mem with mem | mem
  · exact fits_piece (c := .params ps) h.left.left.left mem
  · exact fits_piece (c := .body body) h.left.left.right mem

end Worded

namespace Captures

variable {names : FunctionNames} {n : String}

theorem uses_worded {d : Code} (uses : d.Uses names n) (h : Fits A (Worded.ofCode d)) : A (.name n) := by
  induction uses with
  | read _ | assign => exact h.head
  | lambda _ _ row _ _ ih => exact ih (Worded.fits_pieces h (by simp [row]))

theorem ofFunc_worded {f : Func} (h : Fits A (Worded.ofFunc f)) : ∀ n ∈ capturesOf names f, A (.name n) := by
  intro n captured
  obtain ⟨-, -, before, d, after, row, used, -⟩ := mem_capturesOf.mp captured
  exact uses_worded (Code.uses_iff.mpr used) (Worded.fits_pieces h (by simp [row]))

theorem ofStmts_worded {ss : List Stmt} (h : Fits A (Worded.ofStmts ss)) : ∀ n ∈ capturesIn names ss, A (.name n) := by
  intro n captured
  have first : Mention.first? n (ofCode names (.stmts ss)) = some (.use n) := (Mention.mem_free_iff.mp captured).2
  rw [ofCode_pieces, first?_ofPieces_use] at first
  obtain ⟨before, d, after, row, used, -⟩ := first
  exact uses_worded (Code.uses_iff.mpr used) (Worded.fits_piece (r := .typed) (c := .stmts ss) h (by simp [row]))

end Captures

end

namespace Php

section
variable {scene : Scene}

theorem balanced_typeTest {type : TypePath} {test : String} (h : Lower.typeTest? type = some test) : Balanced test := by
  unfold Lower.typeTest? at h
  split at h
  · cases h
  · split at h <;> cases h <;> decide

theorem balanced_typeNames {type : Option TypePath} (h : Worded.Clean (Worded.ofPath type)) :
    ∀ t ∈ Lower.typeNames scene type, Balanced t := by
  have h := Worded.fits_ofPath.mp h
  unfold Lower.typeNames
  split
  · intro t ht
    obtain ⟨path, found, rfl⟩ := Option.map_eq_some_iff.mp ht
    exact balanced_typeName (h path found)
  · nofun

theorem balanced_imports {path : TypePath} {kind : UseKind} (hp : path.Clean)
    (h : Worded.Clean (Worded.ofUse kind)) : ∀ line ∈ Lower.imports path kind, Balanced (Printer.importLine line) := by
  have root := balanced_pathName hp
  have row (isFunction : Bool) {names : List String} (hn : ∀ name ∈ names, IsWord name) :
      ∀ line ∈ Lower.imports.line path isFunction names, Balanced (Printer.importLine line) := by
    have hn name found := balanced_of_isWord (hn name found)
    intro line found
    unfold Lower.imports.line at found
    split at found
    · simp at found
    · obtain rfl := List.mem_singleton.mp found
      exact Printer.balanced_single isFunction ((root.append (by decide)).append (hn _ (List.mem_singleton_self _)))
    · obtain rfl := List.mem_singleton.mp found
      exact Printer.balanced_group isFunction root hn
  match kind with
  | .plain => simpa [Lower.imports] using Printer.balanced_single _ root
  | .alias (.func name) | .alias (.type name) =>
    have hn : IsWord name := by simpa [Worded.ofUse, UseTarget.name] using h
    simpa [Lower.imports] using Printer.balanced_renamed _ root (balanced_of_isWord hn)
  | .group targets =>
    have words : ∀ target ∈ targets, IsWord target.name := by simpa [PhaseLang.Fits, Worded.ofUse] using h
    simp only [Lower.imports, List.mem_append, or_imp, forall_and]
    refine ⟨row false fun name found => ?_, row true fun name found => ?_⟩
    all_goals
      obtain ⟨target, among, kept⟩ := List.mem_filterMap.mp found
      cases target <;> cases kept
      exact words _ among

variable {callee : PhaseLang.Expr}

theorem balanced_inherited (h : Worded.Clean (Worded.ofExpr callee)) {method : String}
    (form : Lower.callForm scene callee = .inherited method) : Balanced method := by
  obtain ⟨id, pos, kind⟩ := callee
  unfold Lower.callForm at form
  dsimp only at form
  split at form
  · cases form
    exact balanced_methodName (balanced_of_isWord (by simpa [Worded.ofExpr, Worded.ofKind] using h))
  · cases form
  · repeat' split at form
    all_goals cases form

theorem balanced_function {name : String} (h : Worded.Clean (Worded.ofExpr callee))
    (form : Lower.callForm scene callee = .function name) : Balanced name := by
  obtain ⟨id, pos, kind⟩ := callee
  obtain rfl : kind = .ident name := kind_of_function form
  exact balanced_of_isWord (by simpa [Worded.ofExpr, Worded.ofKind] using h)

theorem balanced_modifiers (isInterface : Bool) (m : PhaseLang.Member) :
    ∀ word ∈ Lower.modifiers isInterface m, Balanced word := by
  intro word found
  obtain ⟨modifier, _, kept⟩ := List.mem_filterMap.mp found
  cases modifier with
  | isAbstract =>
    obtain ⟨_, rfl⟩ : isInterface = false ∧ "abstract" = word := by simpa using kept
    decide
  | _ =>
    cases kept
    decide

theorem balanced_classKeyword (c : PhaseLang.Class) : Balanced (Lower.classKeyword c) := by
  unfold Lower.classKeyword
  split
  · split <;> decide
  · decide
  · decide

end

end Php

end PhaseLang
