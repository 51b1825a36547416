import Mathlib.Data.List.Forall2
import PhaseLang.Proofs.Grammar.Marks

/-!
# Promoted parameters

A parameter `this.x` of a constructor stands for a field and for an assignment. The field is added in
front of the constructor if no member before it has its name, so that a field declared behind the
constructor comes twice. The assignments come before the statements of the body, in the order of the
parameters.
-/

namespace PhaseLang

variable {f : Func} {fields ms before after ms' : List Member} {c d d' : Cursor}

def Func.promoted (f : Func) : List Param := f.params.filter (·.promoted)

def Param.field (p : Param) : Member where
  name := p.name
  kind := .field p.type none
  modifiers := [.isPublic]
  attributes := []
  pos := p.pos

/-- The statement is `this.name = name`. -/
def Stmt.Stores (s : Stmt) (name : String) : Prop :=
  ∃ e target field value, s.kind = .expr e ∧ e.kind = .set target field value ∧ target.kind = .this ∧
    field.kind = .ident name ∧ value.kind = .ident name

def Member.named (x : String) (ms : List Member) : List Member := ms.filter (·.name == x)

namespace Member

variable {x : String} {ms : List Member}

theorem named_append (ms ms' : List Member) : named x (ms ++ ms') = named x ms ++ named x ms' := List.filter_append ..

theorem named_eq_nil_iff : named x ms = [] ↔ x ∉ ms.map (·.name) := by
  simp [named, List.filter_eq_nil_iff]

theorem length_named (once : (ms.map (·.name)).Nodup) (there : x ∈ ms.map (·.name)) : (named x ms).length = 1 := by
  induction ms with
  | nil => simp at there
  | cons k ms ih =>
    rw [List.map_cons, List.nodup_cons] at once
    by_cases same : k.name = x
    · have none : named x ms = [] := named_eq_nil_iff.mpr (same ▸ once.1)
      rw [named] at none
      simp [named, same, none]
    · have there : x ∈ ms.map (·.name) := by simpa [Ne.symm same] using there
      simpa [named, same] using ih once.2 there

end Member

namespace Grammar

open PhaseLang.Parser

/-! ## Fields -/

variable {m : Member}

section
variable (found : List Member)

def addField (fields : List Member) (p : Param) : List Member :=
  if (found ++ fields).any (·.name == p.name) then fields else fields ++ [p.field]

theorem promotedFields_method (method : m.kind = .method f) :
    promotedFields m found = f.promoted.foldl (addField found) [] := by
  unfold promotedFields
  rw [method]
  rfl

variable {p : Param}

theorem addField_of_mem {found : List Member} (there : p.name ∈ (found ++ fields).map (·.name)) :
    addField found fields p = fields := by
  simp only [addField]
  rw [if_pos]
  simpa [List.any_eq_true] using there

theorem addField_of_not_mem {found : List Member} (new : p.name ∉ (found ++ fields).map (·.name)) :
    addField found fields p = fields ++ [p.field] := by
  simp only [addField]
  rw [if_neg]
  simpa [List.any_eq_true] using new

/-- The added fields of a name: the first parameter of the name counts, if there is no field yet. -/
theorem named_foldl_addField (x : String) (ps : List Param) (fields : List Member) :
    Member.named x (ps.foldl (addField found) fields) = Member.named x fields ++
      if x ∈ (found ++ fields).map (·.name) then [] else (ps.find? (·.name == x)).toList.map Param.field := by
  induction ps generalizing fields with
  | nil => simp
  | cons p ps ih =>
    rw [List.foldl_cons, ih]
    by_cases same : p.name = x
    · subst same
      by_cases there : p.name ∈ (found ++ fields).map (·.name)
      · rw [addField_of_mem there, if_pos there, if_pos there]
      · rw [addField_of_not_mem there, if_neg there, if_pos (by simp [Param.field])]
        simp [Member.named, Param.field]
    · have skip : (p :: ps).find? (·.name == x) = ps.find? (·.name == x) := by simp [same]
      rw [skip]
      by_cases there : p.name ∈ (found ++ fields).map (·.name)
      · rw [addField_of_mem there]
      · simp [addField_of_not_mem there, Member.named, Param.field, same, Ne.symm same]

theorem named_added (x : String) (ps : List Param) (rest : List Member) :
    Member.named x (found ++ ps.foldl (addField found) [] ++ rest) =
      (if x ∈ found.map (·.name) then [] else (ps.find? (·.name == x)).toList.map Param.field) ++
        Member.named x (found ++ rest) := by
  rw [Member.named_append, Member.named_append, named_foldl_addField, Member.named_append, List.append_nil]
  change _ ++ ([] ++ _) ++ _ = _
  split
  · rw [List.append_nil, List.append_nil, List.nil_append]
  · rename_i missing
    rw [Member.named_eq_nil_iff.mpr missing, List.nil_append, List.nil_append, List.nil_append]

theorem length_named_added {ps : List Param} (mem : p ∈ ps) {rest : List Member}
    (once : ((found ++ rest).map (·.name)).Nodup) :
    (Member.named p.name (found ++ ps.foldl (addField found) [] ++ rest)).length = 1 ↔ p.name ∉ rest.map (·.name) := by
  rw [named_added]
  by_cases there : p.name ∈ found.map (·.name)
  · have one := Member.length_named once (List.map_append ▸ List.mem_append_left _ there)
    have alone : p.name ∉ rest.map (·.name) := by
      rw [List.map_append, List.nodup_append] at once
      exact fun again => once.2.2 p.name there p.name again rfl
    rw [if_pos there, List.nil_append]
    exact ⟨fun _ => alone, fun _ => one⟩
  · obtain ⟨q, found⟩ : ∃ q, ps.find? (·.name == p.name) = some q := by
      rw [← Option.isSome_iff_exists, List.find?_isSome]
      exact ⟨p, mem, by simp⟩
    rw [if_neg there, Member.named_append, Member.named_eq_nil_iff.mpr there, found, ← Member.named_eq_nil_iff,
      ← List.length_eq_zero_iff]
    simp

theorem eq_field_of_mem_foldl_addField {ps : List Param} {k : Member}
    (mem : k ∈ ps.foldl (addField found) fields) : k ∈ fields ∨ ∃ p ∈ ps, k = p.field := by
  induction ps generalizing fields with
  | nil => exact .inl mem
  | cons p ps ih =>
    rcases ih mem with mem | ⟨q, hq, rfl⟩
    · unfold addField at mem
      split at mem
      · exact .inl mem
      · rcases List.mem_append.mp mem with mem | mem
        · exact .inl mem
        · exact .inr ⟨p, by simp, by simpa using mem⟩
    · exact .inr ⟨q, by simp [hq], rfl⟩

end

def Unpromoted (m : Member) : Prop := ∀ f, m.kind = .method f → f.promoted = []

theorem promotedFields_eq_nil (h : Unpromoted m) (found : List Member) : promotedFields m found = [] := by
  cases kind : m.kind with
  | method f => rw [promotedFields_method found kind, h f kind, List.foldl_nil]
  | use _ | field _ _ | property _ _ _ =>
    unfold promotedFields
    rw [kind]

theorem foldl_unpromoted (h : ∀ m ∈ ms, Unpromoted m) (found : List Member) :
    ms.foldl (fun found m => found ++ promotedFields m found ++ [m]) found = found ++ ms := by
  induction ms generalizing found with
  | nil => simp
  | cons m ms ih =>
    rw [List.foldl_cons, ih fun m' mem => h m' (by simp [mem]), promotedFields_eq_nil (h m (by simp))]
    simp

theorem withPromotedFields_of_one (hb : ∀ k ∈ before, Unpromoted k)
    (ha : ∀ k ∈ after, Unpromoted k) :
    withPromotedFields (before ++ m :: after) = before ++ promotedFields m before ++ m :: after := by
  unfold withPromotedFields
  rw [List.foldl_append, foldl_unpromoted hb, List.nil_append, List.foldl_cons, foldl_unpromoted ha]
  simp

/-! ## Methods -/

section
variable {r : Rules} {c : Cursor}

theorem params_plain : wp (params r false) (fun ps _ => ∀ p ∈ ps, p.promoted = false) c := by
  refine wp_parenthesized (by simp) (fun _ _ h => ⟨h, h⟩) fun ps c h => ?_
  unfold param
  rw [wp_bind, wp_peek, if_neg Bool.false_ne_true, pure_bind]
  dsimp only
  rw [if_neg Bool.false_ne_true, wp_bind, wp_expect]
  intro _
  rw [wp_bind]
  intro type d _
  rw [wp_bind]
  intro default d _
  rw [wp_bind, wp_spanFrom, wp_pure]
  simpa [or_imp, forall_and] using h

theorem functionBody_block : wp (functionBody r) (fun b _ => ∃ stmts, b.kind = .block stmts) c := by
  have inline (opening : Token) (problem : SyntaxProblem) (d : Cursor) :
      wp (inlineBody r opening problem) (fun b _ => ∃ stmts, b.kind = .block stmts) d := by
    unfold inlineBody
    rw [wp_bind]
    intro e d _
    simp
  have block (d : Cursor) : wp (block r) (fun b _ => ∃ stmts, b.kind = .block stmts) d := by
    unfold Grammar.block
    rw [wp_bind, wp_previous, wp_bind, wp_newlines, wp_bind]
    intro e d _
    simp
  unfold functionBody
  rw [wp_bind, wp_previous, wp_bind, wp_take]
  refine ⟨fun _ => by simp, fun _ => ?_⟩
  rw [if_neg Bool.false_ne_true, wp_bind]
  intro b d _
  exact wp_ite.mpr ⟨fun _ => inline _ _ d, fun _ => block d⟩

theorem header_of_parts {h : Header} {c₁ c₂ c₃ c₄ : Cursor} {type result : Option TypePath}
    (read₁ : attributes r c = .ok (h.attributes, c₁)) (read₂ : writtenModifiers c₁ = .ok (h.modifiers, c₂))
    (name : c₂.peek.kind = .identifier) (text : c₂.peek.lexeme = h.name)
    (read₃ : annotation? r c₂.advance = .ok (type, c₃)) (paren : c₃.peek.kind = .leftParen)
    (read₄ : params r (h.name == Class.constructorName) c₃.advance = .ok (h.params, c₄))
    (read₅ : annotation? r c₄ = .ok (result, d)) : header r c = .ok (h, d) := by
  unfold header
  rw [← runs_eq_iff, runs_bind, runs_of_eq read₁, runs_bind, runs_of_eq read₂, runs_bind, runs_expect]
  refine ⟨fun _ => ?_, fun other => absurd name other⟩
  rw [runs_bind, runs_of_eq read₃, runs_bind, runs_expect]
  refine ⟨fun _ => ?_, fun other => absurd paren other⟩
  rw [text, runs_bind, runs_of_eq read₄, runs_bind, runs_of_eq read₅, runs_pure]
  exact ⟨rfl, rfl⟩

/-- How the body of a method was read, behind its header. The body of a constructor comes behind the assignments of
the promoted parameters. -/
inductive Body (r : Rules) (name : String) (f : Func) (e d : Cursor) : Prop
  | missing (none : f.body = none)
  | plain {b : Stmt} (other : name ≠ Class.constructorName) (brace : e.peek.kind = .leftBrace)
      (read : functionBody r e.advance = .ok (b, d)) (body : f.body = some b)
  | constructor {stmts stores : List Stmt} {pos : Position} {d' : Cursor} {id : Nat}
    (same : name = Class.constructorName)
      (brace : e.peek.kind = .leftBrace) (read : functionBody r e.advance = .ok (⟨pos, .block stmts⟩, d'))
      (stored : List.Forall₂ (fun p s => s.Stores p.name) f.promoted stores)
      (body : f.body = some ⟨pos, .block (stores ++ stmts)⟩) (behind : d = { d' with nextId := id })

structure Method (r : Rules) (c : Cursor) (m : Member) (f : Func) (d : Cursor) (h : Header) (e : Cursor) : Prop where
  read : header r c = .ok (h, e)
  name : h.name = m.name
  params : h.params = f.params
  body : Body r m.name f e d

theorem promotions_store (ps : List Param) : wp (promotions ps)
    (fun stores d => List.Forall₂ (fun p s => s.Stores p.name) (ps.filter (·.promoted)) stores ∧
      ∃ id, d = { c with nextId := id }) c := by
  unfold promotions
  rw [wp_bind, wp_get, wp_bind, wp_set, wp_pure, List.forall₂_iff_get]
  refine ⟨⟨by simp, fun i _ _ => ?_⟩, _, rfl⟩
  simp [Stmt.Stores, Synthesis.promotion]

variable {start : Token}

theorem traitUse_kind : wp (traitUse r start) (fun m _ => ∀ f, m.kind ≠ .method f) c := by
  unfold traitUse
  rw [wp_bind]
  intro path d _
  rw [wp_bind]
  intro _ d _
  rw [wp_bind, wp_spanFrom, wp_pure]
  nofun

theorem constant_kind : wp (constant r start) (fun m _ => ∀ f, m.kind ≠ .method f) c := by
  unfold constant
  rw [wp_bind, wp_expect]
  intro _
  rw [wp_bind]
  intro type d _
  rw [wp_bind, wp_consume]
  intro _
  rw [wp_bind, wp_newlines, wp_bind]
  intro init d _
  rw [wp_bind, wp_spanFrom, wp_bind]
  intro _ d _
  rw [wp_pure]
  nofun

theorem property_kind {type : Option TypePath} : wp (property r type) (fun kind _ => ∀ f, kind ≠ .method f) c := by
  unfold property
  rw [wp_bind, wp_newlines, wp_bind]
  intro found d _
  rw [wp_bind, wp_expect]
  intro _
  rw [wp_bind]
  intro _ d _
  rw [wp_pure]
  nofun

theorem method_parts {name : String} {isAbstract : Bool} {attributes : List Expr} :
    wp (method r start name isAbstract attributes) (fun f d => ∃ c₁ result e,
      params r (name == Class.constructorName) c = .ok (f.params, c₁) ∧ annotation? r c₁ = .ok (result, e) ∧
      Body r name f e d) c := by
  unfold method
  rw [wp_bind]
  intro params c₁ read₁
  rw [wp_bind]
  intro result e read₂
  rw [wp_bind, wp_get, wp_bind, wp_atKind]
  dsimp only
  rw [wp_ite]
  refine ⟨fun _ => ?_, fun _ => ?_⟩
  · rw [wp_bind]
    intro _ d _
    rw [pure_bind, wp_bind, wp_spanFrom, pure_bind, wp_pure]
    exact ⟨c₁, result, e, read₁, read₂, .missing rfl⟩
  rw [wp_bind, wp_expect]
  intro brace
  rw [wp_bind]
  intro b d read₃
  rw [pure_bind, wp_bind, wp_spanFrom]
  rw [wp_ite]
  refine ⟨fun same => ?_, fun other => ?_⟩
  · obtain ⟨stmts, block⟩ := functionBody_block b d read₃
    rw [wp_bind]
    intro stores d' read₄
    obtain ⟨stored, id, behind⟩ := promotions_store params stores d' read₄
    obtain ⟨pos, _⟩ := b
    subst block
    rw [pure_bind, wp_pure]
    exact ⟨c₁, result, e, read₁, read₂, .constructor (by simpa using same) brace read₃ stored rfl behind⟩
  · rw [pure_bind, wp_pure]
    exact ⟨c₁, result, e, read₁, read₂, .plain (by simpa using other) brace read₃ rfl⟩

theorem member_method : wp (member r) (fun m d => ∀ f, m.kind = .method f → ∃ h e, Method r c m f d h e) c := by
  unfold member
  rw [wp_bind, wp_peek, wp_bind, wp_take]
  refine ⟨fun _ => wp_mono traitUse_kind fun m _ other f method => absurd method (other f), fun _ => ?_⟩
  rw [if_neg Bool.false_ne_true, wp_bind, wp_take]
  refine ⟨fun _ => wp_mono constant_kind fun m _ other f method => absurd method (other f), fun _ => ?_⟩
  rw [if_neg Bool.false_ne_true]
  unfold valueMember
  rw [wp_bind]
  intro attributes c₁ read₁
  rw [wp_bind]
  intro modifiers c₂ read₂
  rw [wp_bind, wp_expect]
  intro name
  rw [wp_bind]
  intro type c₃ read₃
  rw [wp_bind, wp_peek]
  split
  · rw [wp_bind, wp_seqRight, wp_advance]
    refine wp_mono property_kind fun kind d other => ?_
    rw [wp_bind, wp_spanFrom, wp_pure]
    exact fun f method => absurd method (other f)
  · rw [wp_bind, wp_advance, wp_ite]
    refine ⟨fun _ => by simp, fun _ => ?_⟩
    rw [wp_bind, wp_newlines, wp_bind]
    intro init d _
    rw [wp_bind]
    intro _ d _
    rw [pure_bind, wp_bind, wp_spanFrom, wp_pure]
    nofun
  · rename_i paren
    rw [wp_bind, wp_advance, wp_bind]
    refine wp_mono method_parts fun f d read => ?_
    obtain ⟨c₄, result, e, read₄, read₅, body⟩ := read
    rw [pure_bind, wp_bind, wp_spanFrom, wp_pure]
    rintro _ ⟨⟩
    exact ⟨⟨attributes, modifiers, c₂.peek.lexeme, f.params⟩, e,
      header_of_parts read₁ read₂ name rfl read₃ paren read₄ read₅, rfl, rfl, body⟩
  · rw [wp_bind]
    intro _ d _
    rw [pure_bind, wp_bind, wp_spanFrom, wp_pure]
    nofun

theorem Method.unpromoted {e : Cursor} {h : Header} (read : Method r c m f d h e)
    (other : m.name ≠ Class.constructorName) : f.promoted = [] := by
  obtain ⟨_, _, _, _, _, _, _, _, _, _, _, _, params, _⟩ := header_parts read.read
  rw [beq_eq_false_iff_ne.mpr (read.name ▸ other), read.params] at params
  exact List.filter_eq_nil_iff.mpr fun p mem => by simp [params_plain _ _ params p mem]

/-! ## Bodies of classes -/

namespace Members

theorem split (h : Members r c ms d)
    (row : ms = before ++ m :: after) :
    ∃ d₁ d₂, Members r c before d₁ ∧ d₁.peek.kind ≠ .rightBrace ∧ member r d₁ = .ok (m, d₂) := by
  induction h generalizing after with
  | start => simp at row
  | next front more read ih =>
    rcases after.eq_nil_or_concat with rfl | ⟨after, last, rfl⟩
    · obtain ⟨rfl, same⟩ := List.append_inj' row rfl
      cases same
      exact ⟨_, _, front, more, read⟩
    · rw [List.concat_eq_append, ← List.cons_append, ← List.append_assoc] at row
      exact ih (List.append_inj' row rfl).1

theorem agree (h : Members r c ms d) (h' : Members r c ms' d')
    (length : ms.length = ms'.length) : ms = ms' ∧ d = d' := by
  induction h generalizing ms' d' with
  | start =>
    cases h' with
    | start => exact ⟨rfl, rfl⟩
    | next => simp at length
  | next front more read ih =>
    cases h' with
    | start => simp at length
    | next front' more' read' =>
      obtain ⟨rfl, rfl⟩ := ih front' (by simpa using length)
      rw [read] at read'
      cases read'
      exact ⟨rfl, rfl⟩

theorem length_le (h : Members r c ms d) (h' : Members r c ms' d')
    (closed : d.peek.kind = .rightBrace) : ms'.length ≤ ms.length := by
  by_contra more
  have more : ms.length < ms'.length := Nat.lt_of_not_le more
  have row : ms' = ms'.take ms.length ++ ms'.get ⟨ms.length, more⟩ :: ms'.drop (ms.length + 1) := by simp
  obtain ⟨d₁, _, front, opened, -⟩ := h'.split row
  obtain ⟨-, rfl⟩ := h.agree front (by simp [Nat.min_eq_left (Nat.le_of_lt more)])
  exact opened closed

theorem unique (h : Members r c ms d) (h' : Members r c ms' d')
    (closed : d.peek.kind = .rightBrace) (closed' : d'.peek.kind = .rightBrace) : ms = ms' ∧ d = d' :=
  h.agree h' (Nat.le_antisymm (h'.length_le h closed') (h.length_le h' closed))

end Members

theorem classBody_members : wp (classBody r) (fun ms d => ∃ written d', Members r c written d' ∧
    d'.peek.kind = .rightBrace ∧ d = d'.advance ∧ ms = withPromotedFields written) c := by
  unfold classBody
  rw [wp_bind, wp_newlines, wp_bind]
  refine wp_mono (Q := fun written d' => Members r c written d') ?_ fun written d' row => ?_
  · refine wp_iterate (I := fun ms d => Members r c ms.reverse d) .start fun ms d row => ?_
    rw [wp_bind, wp_peek, wp_ite]
    refine ⟨fun _ => (wp_pure _).mpr row, fun more => ?_⟩
    rw [wp_bind]
    intro m d' read
    rw [wp_bind, wp_newlines, wp_pure]
    simp only [List.reverse_cons]
    exact .next row (by simp_all) read
  · rw [wp_bind, wp_expect]
    intro closed
    rw [wp_pure]
    exact ⟨written, d', row, closed, rfl, rfl⟩

theorem classBody_fields {e : Cursor} {members written : List Member}
    (read : classBody r c = .ok (members, d)) (row : Members r c written e) (closed : e.peek.kind = .rightBrace)
    (once : (written.map (·.name)).Nodup) (place : written = before ++ m :: after)
    (same : m.name = Class.constructorName) (method : m.kind = .method f) :
    members = before ++ f.promoted.foldl (addField before) [] ++ m :: after := by
  obtain ⟨written', e', row', closed', -, rfl⟩ := classBody_members members d read
  obtain ⟨rfl, rfl⟩ := row.unique row' closed closed'
  have others {k : Member} {before' after' : List Member} (place' : written = before' ++ k :: after')
      (other : k.name ≠ m.name) : Unpromoted k := by
    intro g kind
    obtain ⟨start, stop, -, -, read⟩ := row.split place'
    obtain ⟨h, e, how⟩ := member_method k stop read g kind
    exact how.unpromoted (same ▸ other)
  rw [place, List.map_append, List.map_cons, List.nodup_append, List.nodup_cons] at once
  obtain ⟨-, ⟨behind, -⟩, front⟩ := once
  rw [place, withPromotedFields_of_one, promotedFields_method before method]
  · intro k mem
    obtain ⟨front', back', rfl⟩ := List.append_of_mem mem
    refine others (by rw [place, List.append_assoc, List.cons_append]) fun found => ?_
    exact front k.name (List.mem_map_of_mem mem) m.name (by simp) found
  · intro k mem
    obtain ⟨front', back', rfl⟩ := List.append_of_mem mem
    refine others (by rw [place, ← List.cons_append, ← List.append_assoc]) fun found => ?_
    exact behind (found ▸ List.mem_map_of_mem mem)

/-- A constructor body that is read from `start` to `stop`: behind the header come braces with some statements
between them, and the assignments of the promoted parameters are put in front of these. -/
def Prologue (r : Rules) (start : Cursor) (f : Func) (b : Stmt) (stop : Cursor) : Prop :=
  ∃ h head pos stmts stop' stores, header r start = .ok (h, head) ∧ h.params = f.params ∧
    head.peek.kind = .leftBrace ∧ functionBody r head.advance = .ok (⟨pos, .block stmts⟩, stop') ∧
    (∃ id, stop = { stop' with nextId := id }) ∧ b = ⟨pos, .block (stores ++ stmts)⟩ ∧
    List.Forall₂ (fun p s => s.Stores p.name) f.promoted stores

end

/-- In a class body that declares no name twice, the promoted parameters of the constructor `m` give fields in front
of it, one for each name that no member before it has. So a parameter has just one field, the declared one or its
own, unless its name is declared behind the constructor; other members keep their order. The body of the
constructor, if it has one, assigns the parameters in their order and goes on with the statements that are read
behind its header. -/
theorem classBody_promotes {r : Rules} {c d e : Cursor} {members written before after : List Member} {m : Member}
    {f : Func}
    (read : classBody r c = .ok (members, d)) (row : Members r c written e) (closed : e.peek.kind = .rightBrace)
    (once : (written.map (·.name)).Nodup) (place : written = before ++ m :: after)
    (same : m.name = Class.constructorName) (method : m.kind = .method f) :
    (∃ new, members = before ++ new ++ m :: after ∧ ∀ k ∈ new, ∃ p ∈ f.promoted, k = p.field) ∧
    (∀ x, Member.named x members =
      (if x ∈ before.map (·.name) then [] else (f.promoted.find? (·.name == x)).toList.map Param.field) ++
        Member.named x written) ∧
    (∀ p ∈ f.promoted, (Member.named p.name members).length = 1 ↔ p.name ∉ (m :: after).map (·.name)) ∧
    ∀ b, f.body = some b → ∃ start stop, Members r c before start ∧ member r start = .ok (m, stop) ∧
      Prologue r start f b stop := by
  have fields := classBody_fields read row closed once place same method
  subst place
  refine ⟨⟨_, fields, fun k mem => ?_⟩, fun x => ?_, fun p mem => ?_, fun b body => ?_⟩
  · exact (eq_field_of_mem_foldl_addField before mem).resolve_left List.not_mem_nil
  · rw [fields, named_added]
  · rw [fields, length_named_added before mem once]
  · obtain ⟨start, stop, front, -, run⟩ := row.split rfl
    obtain ⟨h, head, how⟩ := member_method m stop run f method
    refine ⟨start, stop, front, run, ?_⟩
    cases how.body with
    | missing none => rw [body] at none; cases none
    | plain other => exact absurd same other
    | constructor _ brace source stored body' behind =>
      rw [body] at body'
      cases body'
      exact ⟨_, head, _, _, _, _, how.read, how.params, brace, source, ⟨_, behind⟩, rfl, stored⟩

/-- The field `x`, and `new(this.x, this.y)` behind it. -/
theorem classBody_promotes_two :
    let tokens : List Token := [⟨.identifier, "x", none, ⟨0, 1, "m"⟩⟩, ⟨.newline, "\n", none, ⟨1, 2, "m"⟩⟩,
      ⟨.identifier, "new", none, ⟨2, 5, "m"⟩⟩, ⟨.leftParen, "(", none, ⟨5, 6, "m"⟩⟩,
      ⟨.thisKw, "this", none, ⟨6, 10, "m"⟩⟩,
      ⟨.dot, ".", none, ⟨10, 11, "m"⟩⟩, ⟨.identifier, "x", none, ⟨11, 12, "m"⟩⟩, ⟨.comma, ",", none, ⟨12, 13, "m"⟩⟩,
      ⟨.thisKw, "this", none, ⟨14, 18, "m"⟩⟩, ⟨.dot, ".", none, ⟨18, 19, "m"⟩⟩, ⟨.identifier, "y", none, ⟨19, 20, "m"⟩⟩,
      ⟨.rightParen, ")", none, ⟨20, 21, "m"⟩⟩, ⟨.leftBrace, "\x7b", none, ⟨22, 23, "m"⟩⟩,
      ⟨.returnKw, "return", none, ⟨24, 30, "m"⟩⟩, ⟨.rightBrace, "\x7d", none, ⟨31, 32, "m"⟩⟩,
      ⟨.newline, "\n", none, ⟨32, 33, "m"⟩⟩, ⟨.rightBrace, "\x7d", none, ⟨33, 34, "m"⟩⟩]
    let eof : Token := ⟨.eof, "", none, ⟨34, 34, "m"⟩⟩
    ∃ members d, classBody (.upTo 18) ⟨eof, tokens, eof, false, false, 0⟩ = .ok (members, d) ∧
      members.map (·.name) = ["x", "y", "new"] ∧ (Member.named "x" members).length = 1 ∧
      (Member.named "y" members).length = 1 := by
  intro tokens eof
  have row : Members (.upTo 18) ⟨eof, tokens, eof, false, false, 0⟩ ([_] ++ [_]) _ :=
    .next (.next .start (by decide) rfl) (by decide) rfl
  have promotes := classBody_promotes rfl row rfl (by decide) (rfl : _ = [_] ++ _ :: []) rfl rfl
  exact ⟨_, _, rfl, rfl, (promotes.2.2.1 _ (.head _)).mpr (by decide),
    (promotes.2.2.1 _ (.tail _ (.head _))).mpr (by decide)⟩

/-- The field `x` behind `new(this.x)` comes twice. -/
theorem classBody_field_behind :
    let tokens : List Token := [⟨.identifier, "new", none, ⟨0, 3, "m"⟩⟩, ⟨.leftParen, "(", none, ⟨3, 4, "m"⟩⟩,
      ⟨.thisKw, "this", none, ⟨4, 8, "m"⟩⟩, ⟨.dot, ".", none, ⟨8, 9, "m"⟩⟩, ⟨.identifier, "x", none, ⟨9, 10, "m"⟩⟩,
      ⟨.rightParen, ")", none, ⟨10, 11, "m"⟩⟩, ⟨.leftBrace, "\x7b", none, ⟨12, 13, "m"⟩⟩,
      ⟨.rightBrace, "\x7d", none, ⟨13, 14, "m"⟩⟩, ⟨.newline, "\n", none, ⟨14, 15, "m"⟩⟩,
      ⟨.identifier, "x", none, ⟨15, 16, "m"⟩⟩, ⟨.newline, "\n", none, ⟨16, 17, "m"⟩⟩,
      ⟨.rightBrace, "\x7d", none, ⟨17, 18, "m"⟩⟩]
    let eof : Token := ⟨.eof, "", none, ⟨18, 18, "m"⟩⟩
    let start : Cursor := ⟨eof, tokens, eof, false, false, 0⟩
    ∃ members d written e, classBody (.upTo 13) start = .ok (members, d) ∧ Members (.upTo 13) start written e ∧
      written.map (·.name) = ["new", "x"] ∧ members.map (·.name) = ["x", "new", "x"] := by
  intro tokens eof start
  have row : Members (.upTo 13) start ([_] ++ [_]) _ := .next (.next .start (by decide) rfl) (by decide) rfl
  exact ⟨_, _, _, _, rfl, row, rfl, rfl⟩

end Grammar

end PhaseLang
