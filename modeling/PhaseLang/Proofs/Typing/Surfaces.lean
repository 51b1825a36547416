import PhaseLang.Proofs.Grammar.Phrases
import PhaseLang.Proofs.Typing.Env
import PhaseLang.Proofs.Typing.Places

/-!
# Surfaces

What a program declares is mentioned in it, and is a class or a function. The names of declarations
are plain, so a context that a surface was added to has each of them under its own name.
-/

namespace PhaseLang

def Ty.IsDeclaration : Ty → Prop
  | .classOf _ | .func _ => True
  | _ => False

/-! ## Declarations and what they mention -/

variable {program : List Stmt}

namespace Declaration

mutual

theorem cited_ofStmt (ns : List String) : ∀ (s : Stmt), ∀ d ∈ ofStmt ns s,
    .declared d.name ∈ Cited.ofStmt s ∧ (∀ p, .path p ∈ d.type.cited → .path p ∈ Cited.ofStmt s) ∧
      (d.ns = ns ∨ ∃ p, .scope p ∈ Cited.ofStmt s ∧ d.ns = p.segments)
  | ⟨_, .inNamespace path decls⟩, d, hd => by
    obtain ⟨name, paths, place⟩ := cited_ofStmts path.segments decls d hd
    simp only [Cited.ofStmt, Cited.ofStmtKind, List.mem_cons]
    refine ⟨.inr name, fun p hp => .inr (paths p hp), .inr ?_⟩
    rcases place with place | ⟨p, hp, place⟩
    · exact ⟨path, .inl rfl, place⟩
    · exact ⟨p, .inr hp, place⟩
  | ⟨_, .cls c⟩, d, hd => by
    obtain rfl := List.mem_singleton.mp hd
    simp only [Cited.ofStmt, Cited.ofStmtKind, List.mem_cons]
    exact ⟨.inl trivial, fun p hp => .inr hp, .inl trivial⟩
  | ⟨_, .func f⟩, d, hd => by
    obtain rfl := List.mem_singleton.mp hd
    simp only [Cited.ofStmt, Cited.ofStmtKind, List.mem_cons]
    exact ⟨.inl trivial, fun p hp => .inr hp, .inl trivial⟩
  | ⟨_, .expr _⟩, _, hd | ⟨_, .use _ _ _⟩, _, hd | ⟨_, .var _ _ _⟩, _, hd | ⟨_, .global _⟩, _, hd
  | ⟨_, .raise _⟩, _, hd | ⟨_, .attempt _ _⟩, _, hd | ⟨_, .handler _ _ _⟩, _, hd | ⟨_, .loop _ _ _⟩, _, hd
  | ⟨_, .forIn _ _ _ _⟩, _, hd | ⟨_, .branch _ _ _⟩, _, hd | ⟨_, .switch _ _⟩, _, hd | ⟨_, .block _⟩, _, hd
  | ⟨_, .ret _⟩, _, hd => by simp [ofStmt] at hd

theorem cited_ofStmts (ns : List String) : ∀ (ss : List Stmt), ∀ d ∈ ofStmts ns ss,
    .declared d.name ∈ Cited.ofStmts ss ∧ (∀ p, .path p ∈ d.type.cited → .path p ∈ Cited.ofStmts ss) ∧
      (d.ns = ns ∨ ∃ p, .scope p ∈ Cited.ofStmts ss ∧ d.ns = p.segments)
  | [], d, hd => by simp [ofStmts] at hd
  | s :: ss, d, hd => by
    simp only [ofStmts, List.mem_append] at hd
    simp only [Cited.ofStmts, List.mem_append]
    rcases hd with hd | hd
    · obtain ⟨name, paths, place⟩ := cited_ofStmt ns s d hd
      refine ⟨.inl name, fun p hp => .inl (paths p hp), place.imp_right ?_⟩
      rintro ⟨p, hp, place⟩
      exact ⟨p, .inl hp, place⟩
    · obtain ⟨name, paths, place⟩ := cited_ofStmts ns ss d hd
      refine ⟨.inr name, fun p hp => .inr (paths p hp), place.imp_right ?_⟩
      rintro ⟨p, hp, place⟩
      exact ⟨p, .inr hp, place⟩

end

variable {d : Declaration}

theorem qualifiedName_plain (h : Fits Citation.Spelled (Cited.ofStmts program))
    (hd : d ∈ ofStmts [] program) : QualifiedName.Plain d.qualifiedName := by
  obtain ⟨name, _, place⟩ := cited_ofStmts [] program d hd
  have segment : QualifiedName.IsSegment d.name := h _ name
  rcases place with place | ⟨p, hp, place⟩
  · rw [qualifiedName, place]
    exact QualifiedName.plain_join segment []
  · rw [qualifiedName, place]
    exact TypePath.Spelled.qualify (h _ hp) _

theorem type_fits {A : Citation → Prop} (h : Fits A (Cited.ofStmts program))
    (hd : d ∈ ofStmts [] program) : d.type.Fits A :=
  fun p hp => h _ ((cited_ofStmts [] program d hd).2.1 p hp)

mutual

theorem isDeclaration_ofStmt (ns : List String) : ∀ s : Stmt, ∀ d ∈ ofStmt ns s, d.type.IsDeclaration
  | ⟨_, kind⟩, d, hd => by
    cases kind with
    | inNamespace path decls => exact isDeclaration_ofStmts path.segments decls d hd
    | cls c =>
      obtain rfl := List.mem_singleton.mp hd
      trivial
    | func f =>
      obtain rfl := List.mem_singleton.mp hd
      trivial
    | _ => simp [ofStmt] at hd

theorem isDeclaration_ofStmts (ns : List String) : ∀ ss : List Stmt, ∀ d ∈ ofStmts ns ss, d.type.IsDeclaration
  | [], d, hd => by simp [ofStmts] at hd
  | s :: ss, d, hd => by
    rcases List.mem_append.mp hd with hd | hd
    · exact isDeclaration_ofStmt ns s d hd
    · exact isDeclaration_ofStmts ns ss d hd

end

/-! Declarations outside of namespaces -/

theorem ns_ne_nil {ns : List String} (h : ns ≠ []) {ss : List Stmt} (hd : d ∈ ofStmts ns ss) : d.ns ≠ [] := by
  rcases (cited_ofStmts ns ss d hd).2.2 with same | ⟨p, _, same⟩
  · rwa [same]
  · simp [same, TypePath.segments]

theorem eq_of_root (hd : d ∈ ofStmts [] program) (root : d.ns = []) :
    (∃ pos c, ⟨pos, .cls c⟩ ∈ program ∧ d = ⟨[], c.name, .classOf c⟩) ∨
      ∃ pos f, ⟨pos, .func f⟩ ∈ program ∧ d = ⟨[], f.name, .func f⟩ := by
  induction program with
  | nil => simp [ofStmts] at hd
  | cons s ss ih =>
    rcases List.mem_append.mp hd with hd | hd
    · obtain ⟨pos, kind⟩ := s
      cases kind with
      | inNamespace path decls => exact absurd root (ns_ne_nil (by simp [TypePath.segments]) hd)
      | cls c => exact .inl ⟨pos, c, by simp, List.mem_singleton.mp hd⟩
      | func f => exact .inr ⟨pos, f, by simp, List.mem_singleton.mp hd⟩
      | _ => simp [ofStmt] at hd
    · rcases ih hd with ⟨pos, c, mem, eq⟩ | ⟨pos, f, mem, eq⟩
      · exact .inl ⟨pos, c, List.mem_cons_of_mem _ mem, eq⟩
      · exact .inr ⟨pos, f, List.mem_cons_of_mem _ mem, eq⟩

theorem root_of_qualifiedName (h : ':' ∉ d.qualifiedName.toList) : d.ns = [] := by
  cases ns : d.ns with
  | nil => rfl
  | cons s ss =>
    have joined : d.qualifiedName = QualifiedName.join (s :: (ss ++ [d.name])) := by
      rw [qualifiedName, ns]
      simp [TypePath.qualify, TypePath.qualifiedName, TypePath.ofName]
    obtain ⟨next, more, rest⟩ : ∃ next more, ss ++ [d.name] = next :: more := by
      cases ss <;> simp
    refine absurd ?_ h
    rw [joined, rest, QualifiedName.join, String.intercalate_cons_cons]
    simp

end Declaration

variable {name : String}

namespace Bindings

variable {α : Type}

theorem mem_of_get? {name : String} {a : α} : ∀ {bs : Bindings α}, bs.get? name = some a → (name, a) ∈ bs
  | (n, b) :: rest, h => by
    rw [get?] at h
    split at h
    · rename_i same
      obtain rfl := Option.some.inj h
      exact same ▸ List.mem_cons_self ..
    · exact List.mem_cons_of_mem _ (mem_of_get? h)

theorem get?_of_mem {name : String} {a : α} :
    ∀ {bs : Bindings α}, (names bs).Nodup → (name, a) ∈ bs → bs.get? name = some a
  | (n, b) :: rest, unique, h => by
    obtain ⟨new, unique⟩ := List.nodup_cons.mp unique
    rw [get?]
    rcases List.mem_cons.mp h with same | h
    · cases same
      rw [if_pos rfl]
    · have other : n ≠ name := by
        rintro rfl
        exact new (List.mem_map.mpr ⟨_, h, rfl⟩)
      rw [if_neg other]
      exact get?_of_mem unique h

theorem nodup_names_insertAll (new : Bindings α) :
    ∀ {bs : Bindings α}, (names bs).Nodup → (names (bs.insertAll new)).Nodup := by
  induction new with
  | nil => exact fun h => h
  | cons entry new ih =>
    intro bs h
    have step : (names (bs.insert entry.1 entry.2)).Nodup := by
      rw [names_insert, addName]
      split
      · exact h
      · rename_i absent
        rw [List.nodup_append]
        refine ⟨h, by simp, fun x hx y hy same => absent ?_⟩
        rw [← List.mem_singleton.mp hy, ← same]
        exact hx
    exact ih step

theorem get?_reverse {bs : Bindings α} (unique : (names bs).Nodup) (name : String) :
    get? name bs.reverse = bs.get? name := by
  have reversed : (names bs.reverse).Nodup := ((List.reverse_perm bs).map Prod.fst).nodup_iff.mpr unique
  ext a
  constructor
  · exact fun h => get?_of_mem unique (List.mem_reverse.mp (mem_of_get? h))
  · exact fun h => get?_of_mem reversed (List.mem_reverse.mpr (mem_of_get? h))

theorem mem_of_get?_insertAll {new : Bindings α} {a : α}
    (h : (insertAll [] new).get? name = some a) : (name, a) ∈ new := by
  rw [get?_insertAll_reverse, show get? name ([] : Bindings α) = none from rfl, Option.or_none] at h
  exact List.mem_reverse.mp (mem_of_get? h)

end Bindings

namespace Surface

theorem nodup_names_ofProgram (program : List Stmt) : (Bindings.names (ofProgram program)).Nodup :=
  Bindings.nodup_names_insertAll _ List.nodup_nil

variable {t : Ty}

theorem mem_of_get?_ofProgram (h : (ofProgram program).get? name = some t) :
    ∃ d ∈ Declaration.ofStmts [] program, d.qualifiedName = name ∧ d.type = t := by
  obtain ⟨d, hd, same⟩ := List.mem_map.mp (Bindings.mem_of_get?_insertAll h)
  exact ⟨d, hd, congrArg Prod.fst same, congrArg Prod.snd same⟩

/-- The names of declarations have no `::` at their front, so a context has them under the same names. -/
theorem at?_ofProgram (h : Fits Citation.Spelled (Cited.ofStmts program)) (key : String) :
    (ofProgram program).at? key = (ofProgram program).get? key := by
  have unique := nodup_names_ofProgram program
  have plain : ∀ entry ∈ ofProgram program, (QualifiedName.key entry.1, entry.2) = entry := by
    intro entry hmem
    obtain ⟨d, hd, hname, _⟩ := mem_of_get?_ofProgram (Bindings.get?_of_mem (a := entry.2) unique hmem)
    have key_eq : QualifiedName.key entry.1 = entry.1 := hname ▸ Declaration.qualifiedName_plain h hd
    rw [key_eq]
  rw [at?, List.map_congr_left plain, List.map_id', Bindings.get?_insertAll_reverse, Bindings.get?_reverse unique]
  exact Option.or_none

/-- Functions are not named like types, so a name without colons that starts as those of types do is that
of a class at the top of the program. -/
theorem class_of_get? (clean : Fits Wording.Clean (Worded.ofStmts program))
    (plain : ':' ∉ name.toList) (upper : name.toList.head?.any Scanner.isUpper = true)
    (h : (ofProgram program).get? name = some t) : ∃ pos c, ⟨pos, .cls c⟩ ∈ program ∧ t = .classOf c := by
  obtain ⟨d, hd, rfl, rfl⟩ := mem_of_get?_ofProgram h
  have root := Declaration.root_of_qualifiedName plain
  rcases Declaration.eq_of_root hd root with ⟨pos, c, mem, rfl⟩ | ⟨pos, f, mem, rfl⟩
  · exact ⟨pos, c, mem, rfl⟩
  · have named : Declaration.qualifiedName ⟨[], f.name, .func f⟩ = f.name := by
      simp [Declaration.qualifiedName, TypePath.qualify, TypePath.qualifiedName, TypePath.ofName, QualifiedName.join]
    have lower := (Worded.fits_ofStmts program).mp clean _ mem
    simp only [Worded.ofStmt, Worded.ofStmtKind, fits_cons, Wording.clean_function] at lower
    rw [named, lower.1.2] at upper
    cases upper

theorem isDeclaration_of_get? (h : (ofProgram program).get? name = some t) : t.IsDeclaration := by
  obtain ⟨d, hd, _, rfl⟩ := mem_of_get?_ofProgram h
  exact Declaration.isDeclaration_ofStmts [] program d hd

theorem isDeclaration_of_declared? (h : (ofProgram program).declared? name = some t) : t.IsDeclaration := by
  unfold declared? at h
  split at h
  · rename_i found
    cases h
    exact isDeclaration_of_get? found
  · obtain ⟨entry, found, rfl⟩ := Option.map_eq_some_iff.mp h
    have unique := nodup_names_ofProgram program
    exact isDeclaration_of_get? (Bindings.get?_of_mem unique (List.mem_of_find?_eq_some found))

end Surface

end PhaseLang
