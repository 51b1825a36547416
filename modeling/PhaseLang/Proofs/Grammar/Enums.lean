import PhaseLang.Proofs.Grammar.Termination
import PhaseLang.Proofs.Grammar.Violations

/-!
# Enums as classes

What is read of an enum is said first, without the class that it becomes: a heading and a row of cases.
An enum over values becomes a class of constants, and the place of a case in the row, which counts cases
with a value too, stands for a missing number. Any other enum becomes a class of factories, whose bodies
are what their texts read as.
-/

namespace PhaseLang.Grammar

open PhaseLang.Parser

variable {α : Type} {r : Rules}

/-! ## Written enums -/

/-- A case of an enum over values: its name, and its value if one is written. The cursor behind the name has taken
the id of the value that stands for a missing one. -/
inductive ValueCase (r : Rules) (c : Cursor) : String × Option Expr → Cursor → Prop
  | bare {d : Cursor} (name : c.peek.kind = .typeIdentifier) (other : c.advance.peek.kind ≠ .equal)
      (stop : endStatement { c.advance with nextId := c.advance.nextId + 1 } = .ok ((), d)) :
      ValueCase r c (c.peek.lexeme, none) d
  | given {e : Expr} {c' d : Cursor} (name : c.peek.kind = .typeIdentifier) (equal : c.advance.peek.kind = .equal)
      (read : r.expression c.advance.advance.skipNewlines = .ok (e, c')) (stop : endStatement c' = .ok ((), d)) :
      ValueCase r c (c.peek.lexeme, some e) d

def behindFactory (c : Cursor) (params : List Param) : Cursor :=
  { c with nextId := c.nextId + Synthesis.factoryIds (params.map (·.name)) }

inductive FactoryCase (r : Rules) (c : Cursor) : String × List Param → Cursor → Prop
  | bare {d : Cursor} (name : c.peek.kind = .typeIdentifier) (other : c.advance.peek.kind ≠ .leftParen)
      (stop : endStatement (behindFactory c.advance []) = .ok ((), d)) : FactoryCase r c (c.peek.lexeme, []) d
  | given {params : List Param} {c' d : Cursor} (name : c.peek.kind = .typeIdentifier)
      (paren : c.advance.peek.kind = .leftParen) (read : Grammar.params r false c.advance.advance = .ok (params, c'))
      (stop : endStatement (behindFactory c' params) = .ok ((), d)) : FactoryCase r c (c.peek.lexeme, params) d

inductive Cases (written : Cursor → α → Cursor → Prop) : Cursor → List α → Cursor → Prop
  | closed {c : Cursor} (brace : c.peek.kind = .rightBrace) : Cases written c [] c.advance
  | case {c d e : Cursor} {x : α} {xs : List α} (first : written c x d) (more : Cases written d xs e) :
      Cases written c (x :: xs) e

/-- An enum behind its keyword, as it is written. -/
inductive Enum where
  | values (name : String) (overString : Bool) (cases : List (String × Option Expr))
  | factories (name : String) (cases : List (String × List Param))

inductive Enum.Written (r : Rules) (c : Cursor) : Enum → Cursor → Prop
  | values {cases : List (String × Option Expr)} {d : Cursor} (name : c.peek.kind = .typeIdentifier)
      (as : c.advance.peek.kind = .asKw) (type : c.advance.advance.peek.kind = .typeIdentifier)
      (known : c.advance.advance.peek.lexeme = "String" ∨ c.advance.advance.peek.lexeme = "Int")
      (brace : c.advance.advance.advance.skipNewlines.peek.kind = .leftBrace)
      (row : Cases (ValueCase r) c.advance.advance.advance.skipNewlines.advance.skipNewlines cases d) :
      Written r c (.values c.peek.lexeme (c.advance.advance.peek.lexeme == "String") cases) d
  | factories {cases : List (String × List Param)} {d : Cursor} (name : c.peek.kind = .typeIdentifier)
      (bare : c.advance.peek.kind ≠ .asKw) (brace : c.advance.skipNewlines.peek.kind = .leftBrace)
      (row : Cases (FactoryCase r) c.advance.skipNewlines.advance.skipNewlines cases d) :
      Written r c (.factories c.peek.lexeme cases) d

/-! ## Members -/

/-- The constant of a case, with its place in the row. It has the value that is written, or else stands for its name
or its place. -/
structure IsConstant (overString : Bool) (x : (String × Option Expr) × Nat) (m : Member) : Prop where
  name : m.name = x.1.1
  modifiers : m.modifiers = [.isConst]
  value : ∃ e, m.kind = .field none (some e) ∧ match x.1.2 with
    | some written => e = written
    | none => e.kind = .literal (if overString then .string x.1.1 else .number (toString x.2))

/-- The block returns a call of the enum with the place and the name of a case, and the list of its parameters. -/
def Makes (s : Stmt) (enumName caseName : String) (index : Nat) (params : List String) : Prop :=
  ∃ ret call callee ordinal label values items, s.kind = .block [ret] ∧ ret.kind = .ret (some call) ∧
    call.kind = .call callee [⟨none, ordinal⟩, ⟨none, label⟩, ⟨none, values⟩] ∧ callee.kind = .path (.ofName enumName) ∧
    ordinal.kind = .literal (.number (toString index)) ∧ label.kind = .literal (.string caseName) ∧
    values.kind = .list items false ∧ items.map (·.kind) = params.map .ident

theorem nameList_kinds (names : List String) (id start : Nat) :
    (Synthesis.nameList id start names).1.map (·.kind) = names.map .ident := by
  induction names generalizing id start with
  | nil => rfl
  | cons x xs ih =>
    cases xs with
    | nil => rfl
    | cons y ys =>
      have later := ih (id + 1) (start + x.utf8ByteSize + 2)
      simpa [Synthesis.nameList] using later

/-- The factory of a case, with its place in the row. Its body is a statement of its own, which its text reads as. -/
structure IsFactory (enumName : String) (x : (String × List Param) × Nat) (m : Member) : Prop where
  name : m.name = x.1.1
  modifiers : m.modifiers = [.isPublic, .isStatic]
  method : ∃ f body, m.kind = .method f ∧ f.name = x.1.1 ∧ f.params = x.1.2 ∧ f.result = some (.ofName enumName) ∧
    f.body = some body ∧ Makes body enumName x.1.1 x.2 (x.1.2.map (·.name)) ∧
    ∃ id next, (scan (Synthesis.factoryText enumName x.1.1 x.2 (x.1.2.map (·.name))) Synthesis.file).diagnostics = [] ∧
      parse (scan (Synthesis.factoryText enumName x.1.1 x.2 (x.1.2.map (·.name))) Synthesis.file).tokens id =
        .ok ([body], next)

/-! ## Rows of cases -/

structure Inner (row : List Token) (n : Nat) (c : Cursor) : Prop extends c.Over row where
  lt : c.rest.length < n

namespace Inner

variable {row : List Token} {n : Nat} {c : Cursor}

theorem advance (h : Inner row n c) : Inner row n c.advance where
  toOver := h.toOver.advance
  lt := by
    have lt := h.lt
    unfold Cursor.advance
    split <;> simp_all
    omega

theorem skipNewlines (h : Inner row n c) : Inner row n c.skipNewlines where
  toOver := h.toOver.skipNewlines
  lt := by
    have way := (Cursor.from_skipNewlines (n := n) (Course.along_ready.mpr h.toOver) []).1
    exact Nat.lt_of_le_of_lt way.le h.lt

theorem kept {p : Parser α} {P : α → Prop} {A : α → List Workpiece} (h : Inner row n c)
    (built : Builds (.along row) (fun _ => true) n [] p P A) :
    wp p (fun _ d => Inner row n d ∧ d.rest.length < c.rest.length) c := by
  intro a d run
  have laid := ((runs_of_eq run).mp (built.lays [] c (Course.along_ready.mpr h.toOver) trivial)).1
  have shorter := laid.moved rfl
  exact ⟨⟨Course.along_ready.mp laid.way.ready, Nat.lt_trans shorter h.lt⟩, shorter⟩

end Inner

section
variable {row : List Token} {n : Nat} {written : Cursor → α → Cursor → Prop} {case : Nat → Parser Member}
  {is : α × Nat → Member → Prop}

/-- From wherever in the row, the parser of a case reads what is written there, and nothing else. -/
structure Lowering (row : List Token) (n : Nat) (written : Cursor → α → Cursor → Prop) (case : Nat → Parser Member)
    (is : α × Nat → Member → Prop) : Prop where
  sound : ∀ i c, wp (case i) (fun _ d => ∃ x, written c x d) c
  name : ∀ {c x d}, written c x d → c.peek.kind = .typeIdentifier
  total : ∀ {c x d} i, written c x d → c.Over row → ∃ m, case i c = .ok (m, d) ∧ is (x, i) m
  kept : ∀ i c, Inner row n c → wp (case i) (fun _ d => Inner row n d ∧ d.rest.length < c.rest.length) c

def caseRound (case : Nat → Parser Member) (members : List Member) : Parser (Round (List Member) (List Member)) := do
  if (← atKind .rightBrace) || (← atEnd) then return .done members
  else return .again (members ++ [← case members.length])

theorem enumCases_eq (case : Nat → Parser Member) : enumCases case = (do
    newlines
    let members ← iterate (caseRound case) []
    let _ ← expect .rightBrace "`\x7d` at the end of an enum body"
    return members) := rfl

theorem Lowering.loop (h : Lowering row n written case is) {c e : Cursor} {xs : List α} (cases : Cases written c xs e)
    (front : List Member) (inner : Inner row n c) :
    ∃ ms d, iterate (caseRound case) front c = .ok (front ++ ms, d) ∧ d.peek.kind = .rightBrace ∧ e = d.advance ∧
      List.Forall₂ is (xs.zipIdx front.length) ms := by
  induction cases generalizing front with
  | closed brace =>
    refine ⟨[], _, iterate_done ?_, brace, rfl, .nil⟩
    unfold caseRound
    rw [← runs_eq_iff, runs_bind, runs_atKind, brace, runs_bind]
    simp [atEnd]
  | @case c d e x xs first more ih =>
    obtain ⟨m, run, isCase⟩ := h.total front.length first inner.toOver
    obtain ⟨inner, shorter⟩ := h.kept _ c inner m d run
    obtain ⟨ms, d', more, brace, stop, rest⟩ := ih (front ++ [m]) inner
    refine ⟨m :: ms, d', iterate_again ?_ shorter (by simpa using more), brace, stop, ?_⟩
    · unfold caseRound
      rw [← runs_eq_iff, runs_bind, runs_atKind, h.name first, runs_bind]
      simp [atEnd, h.name first, runs_of_eq run]
    · rw [List.zipIdx_cons]
      exact .cons isCase (by simpa using rest)

theorem Lowering.cases_total (h : Lowering row n written case is) {c e : Cursor} {xs : List α}
    (cases : Cases written c.skipNewlines xs e) (inner : Inner row n c) :
    ∃ ms, enumCases case c = .ok (ms, e) ∧ List.Forall₂ is xs.zipIdx ms := by
  obtain ⟨ms, d, run, brace, rfl, members⟩ := h.loop cases [] inner.skipNewlines
  refine ⟨ms, ?_, members⟩
  rw [enumCases_eq, ← runs_eq_iff, runs_bind, runs_newlines, runs_bind, runs_of_eq run, runs_bind, runs_expect]
  exact ⟨fun _ => ⟨rfl, rfl⟩, fun other => absurd brace other⟩

theorem Lowering.cases_sound (h : Lowering row n written case is) (c : Cursor) :
    wp (enumCases case) (fun _ e => ∃ xs, Cases written c.skipNewlines xs e) c := by
  rw [enumCases_eq, wp_bind, wp_newlines, wp_bind]
  -- whatever row of cases comes next, it goes on from the cases read so far
  let Front (d : Cursor) : Prop := ∃ ys, ∀ xs e, Cases written d xs e → Cases written c.skipNewlines (ys ++ xs) e
  refine wp_mono (Q := fun _ d => Front d) ?_ fun ms d ⟨ys, front⟩ => ?_
  · refine wp_iterate (I := fun _ d => Front d) ⟨[], fun _ _ h => h⟩ fun ms d ⟨ys, front⟩ => ?_
    unfold caseRound
    rw [wp_bind, wp_atKind, wp_bind, wp_atEnd, wp_ite]
    refine ⟨fun _ => (wp_pure _).mpr ⟨ys, front⟩, fun _ => ?_⟩
    rw [wp_bind]
    refine wp_mono (h.sound _ d) fun m d' ⟨x, first⟩ => (wp_pure _).mpr ⟨ys ++ [x], fun xs e more => ?_⟩
    simpa using front (x :: xs) e (.case first more)
  · rw [wp_bind, wp_expect]
    exact fun brace => (wp_pure _).mpr ⟨ys ++ [], front _ _ (.closed brace)⟩

end

/-! ## Cases -/

section
variable {row : List Token} {n : Nat}

theorem valueCase_lowering (row : List Token) (n : Nat) (overString : Bool) :
    Lowering row n (ValueCase (.upTo n)) (valueCase (.upTo n) overString) (IsConstant overString) where
  sound i c := by
    unfold valueCase caseName
    rw [wp_bind, wp_expect]
    intro name
    rw [wp_bind, wp_take]
    refine ⟨fun equal => ?_, fun other => ?_⟩
    · rw [if_pos rfl, wp_bind, wp_newlines, wp_bind]
      intro e c' read
      rw [wp_bind]
      intro _ d stop
      rw [wp_bind, wp_spanFrom, wp_pure]
      exact ⟨_, .given name equal read stop⟩
    · rw [if_neg Bool.false_ne_true, wp_bind, wp_node, wp_bind]
      intro _ d stop
      rw [wp_bind, wp_spanFrom, wp_pure]
      exact ⟨_, .bare name other stop⟩
  name written := by cases written <;> assumption
  total {c x d} i written _ := by
    have run : runs (valueCase (.upTo n) overString i) (fun m d' => IsConstant overString (x, i) m ∧ d' = d)
        (fun _ => False) c := by
      unfold valueCase caseName
      rw [runs_bind, runs_expect]
      cases written with
      | bare name other stop =>
        refine ⟨fun _ => ?_, fun no => no name⟩
        rw [runs_bind, runs_take]
        refine ⟨fun equal => absurd equal other, fun _ => ?_⟩
        rw [if_neg Bool.false_ne_true, runs_bind, runs_node, runs_bind, runs_of_eq stop, runs_bind, runs_spanFrom,
          runs_pure]
        exact ⟨⟨rfl, rfl, _, rfl, rfl⟩, rfl⟩
      | given name equal read stop =>
        refine ⟨fun _ => ?_, fun no => no name⟩
        rw [runs_bind, runs_take]
        refine ⟨fun _ => ?_, fun no => absurd equal no⟩
        rw [if_pos rfl, runs_bind, runs_newlines, runs_bind, runs_of_eq read, runs_bind, runs_of_eq stop, runs_bind,
          runs_spanFrom, runs_pure]
        exact ⟨⟨rfl, rfl, _, rfl, rfl⟩, rfl⟩
    obtain ⟨m, _, found, isCase, rfl⟩ := run.exists_ok
    exact ⟨m, found, isCase⟩
  kept i _ inner := inner.kept (valueCase_builds (Rules.upTo_over row n) overString i)

theorem factoryCase_lowering {source file : String} (n : Nat) {enumName : String}
    (enum : Named (scan source file).tokens .typeIdentifier enumName) :
    Lowering (scan source file).tokens n (FactoryCase (.upTo n)) (factoryCase (.upTo n) enumName)
      (IsFactory enumName) where
  sound i c := by
    unfold factoryCase caseName
    rw [wp_bind, wp_expect]
    intro name
    rw [wp_bind, wp_after?]
    refine ⟨fun paren params c' read => ?_, fun other => ?_⟩
    all_goals
      dsimp only
      rw [wp_bind, wp_get, wp_bind, wp_set, wp_bind]
      intro _ d stop
      rw [wp_bind, wp_spanFrom, wp_pure]
    · exact ⟨_, .given name paren read stop⟩
    · exact ⟨_, .bare name other stop⟩
  name written := by cases written <;> assumption
  total {c x d} i written inRow := by
    have run : runs (factoryCase (.upTo n) enumName i) (fun m d' => IsFactory enumName (x, i) m ∧ d' = d)
        (fun _ => False) c := by
      have made (named : c.peek.kind = .typeIdentifier) {ps : List Param}
          (words : ∀ p ∈ ps, Named (scan source file).tokens .identifier p.name) (id : Nat) (pos : Position) :
          IsFactory enumName ((c.peek.lexeme, ps), i) ⟨c.peek.lexeme, .method ⟨c.peek.lexeme, ps,
            some (Synthesis.factory id enumName c.peek.lexeme i (ps.map (·.name))), some (.ofName enumName), [], pos⟩,
            [.isPublic, .isStatic], [], pos⟩ := by
        have label : Named (scan source file).tokens .typeIdentifier c.peek.lexeme := ⟨c.peek, inRow.peek, named, rfl⟩
        have named := List.forall_mem_map.mpr fun p mem => (words p mem).word (.inl rfl)
        have reads := Synthesis.factory_reads (enum.word (.inr rfl)) (label.word (.inr rfl)) named i
        exact ⟨rfl, rfl, _, _, rfl, rfl, rfl, rfl, rfl,
          ⟨_, _, _, _, _, _, _, rfl, rfl, rfl, rfl, rfl, rfl, rfl, nameList_kinds _ _ _⟩, id, _, reads.quiet,
          reads.parsed id⟩
      unfold factoryCase caseName
      rw [runs_bind, runs_expect]
      cases written with
      | bare name other stop =>
        refine ⟨fun _ => ?_, fun no => no name⟩
        rw [runs_bind, runs_after?]
        refine ⟨fun paren => absurd paren other, fun _ => ?_⟩
        rw [runs_bind, runs_get, runs_bind, runs_set, runs_bind]
        refine (runs_of_eq stop).mpr ?_
        rw [runs_bind, runs_spanFrom, runs_pure]
        exact ⟨made name (by simp) _ _, rfl⟩
      | given name paren read stop =>
        refine ⟨fun _ => ?_, fun no => no name⟩
        rw [runs_bind, runs_after?]
        refine ⟨fun _ => ?_, fun no => absurd paren no⟩
        rw [runs_of_eq read, runs_bind, runs_get, runs_bind, runs_set, runs_bind]
        refine (runs_of_eq stop).mpr ?_
        rw [runs_bind, runs_spanFrom, runs_pure]
        exact ⟨made name (params_named (Rules.upTo_over _ n) false inRow.advance.advance _ _ read).2 _ _, rfl⟩
    obtain ⟨m, _, found, isCase, rfl⟩ := run.exists_ok
    exact ⟨m, found, isCase⟩
  kept i _ inner := inner.kept (factoryCase_builds (Rules.upTo_over _ n) enumName i)

end

/-! ## Declarations -/

def Enum.Becomes : Enum → Class → Prop
  | .values name overString cases, x =>
    x.name = name ∧ x.kind = .plain ∧ x.parent = none ∧ List.Forall₂ (IsConstant overString) cases.zipIdx x.members
  | .factories name cases, x =>
    x.name = name ∧ x.kind = .plain ∧ x.parent = some (.ofQualified "Std::PhaseEnum") ∧
      List.Forall₂ (IsFactory name) cases.zipIdx x.members

/-- An enum that is written in a source is read as a class of as many members as it has cases, in their order: for an
enum over values they are constants, for any other the factories. And nothing but a written enum is read. -/
theorem enumDeclaration_lowers {source file : String} {n : Nat} {c : Cursor} (inRow : c.Over (scan source file).tokens)
    (lt : c.rest.length < n) (attributes : List Expr) :
    (∀ x d, Enum.Written (.upTo n) c x d → ∃ pos cls,
      enumDeclaration (.upTo n) attributes c = .ok (⟨pos, .cls cls⟩, d) ∧ x.Becomes cls) ∧
    ∀ s d, enumDeclaration (.upTo n) attributes c = .ok (s, d) → ∃ x, Enum.Written (.upTo n) c x d := by
  have inner : Inner (scan source file).tokens n c := ⟨inRow, lt⟩
  constructor
  · intro x d written
    suffices made : runs (enumDeclaration (.upTo n) attributes)
        (fun s d' => (∃ pos cls, s = ⟨pos, .cls cls⟩ ∧ x.Becomes cls) ∧ d' = d) (fun _ => False) c by
      obtain ⟨s, _, run, ⟨pos, cls, rfl, becomes⟩, rfl⟩ := made.exists_ok
      exact ⟨pos, cls, run, becomes⟩
    unfold enumDeclaration finishClass
    rw [runs_bind, runs_previous, runs_bind, runs_expect]
    cases written with
    | values name as type known brace row =>
      obtain ⟨ms, run, members⟩ := (valueCase_lowering (scan source file).tokens n
        (c.advance.advance.peek.lexeme == "String")).cases_total row inner.advance.advance.advance.skipNewlines.advance
      refine ⟨fun _ => ?_, fun no => no name⟩
      rw [runs_bind, runs_after?]
      refine ⟨fun _ => ?_, fun no => absurd as no⟩
      rw [runs_bind, runs_expect]
      refine ⟨fun _ => ?_, fun no => no type⟩
      rw [if_pos (by simpa using known), runs_pure, runs_bind, runs_newlines, runs_bind, runs_expect]
      refine ⟨fun _ => ?_, fun no => no brace⟩
      rw [runs_bind, runs_of_eq run, runs_bind, runs_spanFrom, runs_pure]
      exact ⟨⟨_, _, rfl, rfl, rfl, rfl, members⟩, rfl⟩
    | factories name bare brace row =>
      obtain ⟨ms, run, members⟩ := (factoryCase_lowering n ⟨c.peek, inRow.peek, name, rfl⟩).cases_total row
        inner.advance.skipNewlines.advance
      refine ⟨fun _ => ?_, fun no => no name⟩
      rw [runs_bind, runs_after?]
      refine ⟨fun as => absurd as bare, fun _ => ?_⟩
      rw [runs_bind, runs_newlines, runs_bind, runs_expect]
      refine ⟨fun _ => ?_, fun no => no brace⟩
      rw [runs_bind, runs_of_eq run, runs_bind, runs_spanFrom, runs_pure]
      exact ⟨⟨_, _, rfl, rfl, rfl, rfl, members⟩, rfl⟩
  · suffices found :
        wp (enumDeclaration (.upTo n) attributes) (fun _ d => ∃ x, Enum.Written (.upTo n) c x d) c from found
    unfold enumDeclaration finishClass
    rw [wp_bind, wp_previous, wp_bind, wp_expect]
    intro name
    rw [wp_bind, wp_after?]
    refine ⟨fun as => ?_, fun bare => ?_⟩
    · rw [wp_bind, wp_expect]
      intro type
      rw [wp_ite]
      refine ⟨fun known => ?_, fun _ => wp_failAt⟩
      rw [wp_pure, wp_bind, wp_newlines, wp_bind, wp_expect]
      intro brace
      rw [wp_bind]
      refine wp_mono ((valueCase_lowering (scan source file).tokens n _).cases_sound _) fun ms d ⟨xs, row⟩ => ?_
      rw [wp_bind, wp_spanFrom, wp_pure]
      exact ⟨_, .values name as type (by simpa using known) brace row⟩
    · rw [wp_bind, wp_newlines, wp_bind, wp_expect]
      intro brace
      rw [wp_bind]
      refine wp_mono ((factoryCase_lowering n ⟨c.peek, inRow.peek, name, rfl⟩).cases_sound _) fun ms d ⟨xs, row⟩ => ?_
      rw [wp_bind, wp_spanFrom, wp_pure]
      exact ⟨_, .factories name bare brace row⟩

/-- An enum over numbers, whose second case has no value. -/
theorem enumDeclaration_lowers_values :
    let source := "enum E as Int \x7b\nA = 5\nB\n\x7d"
    let tokens : List Token := [⟨.typeIdentifier, "E", none, ⟨5, 6, ""⟩⟩, ⟨.asKw, "as", none, ⟨7, 9, ""⟩⟩,
      ⟨.typeIdentifier, "Int", none, ⟨10, 13, ""⟩⟩, ⟨.leftBrace, "\x7b", none, ⟨14, 15, ""⟩⟩,
      ⟨.newline, "\n", none, ⟨15, 16, ""⟩⟩, ⟨.typeIdentifier, "A", none, ⟨16, 17, ""⟩⟩,
      ⟨.equal, "=", none, ⟨18, 19, ""⟩⟩, ⟨.number, "5", some "5", ⟨20, 21, ""⟩⟩, ⟨.newline, "\n", none, ⟨21, 22, ""⟩⟩,
      ⟨.typeIdentifier, "B", none, ⟨22, 23, ""⟩⟩, ⟨.newline, "\n", none, ⟨23, 24, ""⟩⟩,
      ⟨.rightBrace, "\x7d", none, ⟨24, 25, ""⟩⟩]
    let keyword : Token := ⟨.enumKw, "enum", none, ⟨0, 4, ""⟩⟩
    let eof : Token := ⟨.eof, "", none, ⟨25, 25, ""⟩⟩
    (scan source "").tokens = keyword :: tokens ++ [eof] ∧
    ∃ pos x five d, enumDeclaration (.upTo 13) [] ⟨keyword, tokens, eof, false, false, 0⟩ = .ok (⟨pos, .cls x⟩, d) ∧
      five.kind = .literal (.number "5") ∧ (Enum.values "E" false [("A", some five), ("B", none)]).Becomes x := by
  intro source tokens keyword eof
  have scanned : (scan source "").tokens = keyword :: tokens ++ [eof] := by decide +kernel
  have inRow : Cursor.Over (scan source "").tokens ⟨keyword, tokens, eof, false, false, 0⟩ := by
    rw [scanned]
    exact ⟨by simp, fun t mem => ⟨by simp [mem], by revert t; decide⟩, by simp [eof]⟩
  have row : Enum.Written (.upTo 13) ⟨keyword, tokens, eof, false, false, 0⟩
    (.values "E" false [("A", some _), ("B", none)]) _ :=
    .values rfl rfl rfl (.inr rfl) rfl
      (.case (.given rfl rfl rfl rfl) (.case (.bare rfl (by decide) rfl) (.closed rfl)))
  obtain ⟨pos, x, run, becomes⟩ := (enumDeclaration_lowers inRow (by decide) []).1 _ _ row
  exact ⟨scanned, pos, x, _, _, run, rfl, becomes⟩

end PhaseLang.Grammar
