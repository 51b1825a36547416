import PhaseLang.Proofs.Grammar.Surroundings

/-!
# The two marks of a cursor

What the parser accepts depends on two marks that it sets on its way, one for namespaces and one for
methods without a body. The first does what it is for: namespaces do not stand in each other, and
imports stand in them. The second is set at the start of an interface and taken back at the end of
any interface, so that it also holds for the classes inside the methods of an interface, and does not
hold behind a method that has an interface inside.
-/

namespace PhaseLang

open PhaseLang.Parser

variable {c d : Cursor} {h : Header}

/-! ## Whole programs -/

variable {c : Cursor}

theorem parse_runs {tokens : List Token} (ends : ∀ t ∈ tokens.getLast?, t.kind = .eof) (nextId : Nat) :
    match parse tokens nextId with
    | .ok (program, _) => ∀ x ∈ Placed.ofStmts .outermost program, x.Good
    | .error e => ∃ t ∈ tokens, e.pos = t.pos := by
  cases start : Cursor.ofTokens? tokens nextId with
  | none => simp [parse, start]
  | some c =>
    have ready := Cursor.ofTokens?_ready (C := .along tokens) ends (fun _ ht => ht) (fun _ ht eof => ⟨ht, eof⟩) start
    obtain ⟨-, inNamespace, inInterface⟩ := Cursor.ofTokens?_fresh start
    obtain ⟨done, failed⟩ := parse_outcome start ready fun _ _ _ _ _ _ _ => trivial
    split
    · rename_i program next parsed
      obtain ⟨d, -, laid⟩ := done program next parsed
      have meets : Outlook.Meets ⟨false, false, false⟩ [] c := ⟨_, rfl, inInterface, .inl inNamespace⟩
      obtain ⟨o, leads, -, -⟩ := laid.steps.keep (fun step h => step.meets (by simp [Outlook.Fair]) h) meets
      obtain ⟨-, good, -⟩ := leads.parts (by simp [Workpiece.isPart])
      intro x hx
      rw [Placed.ofStmts_eq] at hx
      obtain ⟨s, hs, hx⟩ := List.mem_flatMap.mp hx
      exact good .outermost ⟨rfl, by simp⟩ (.stmt s) (by simpa using hs) x hx
    · rename_i e parsed
      exact (failed e parsed).known

/-- Namespaces do not stand in each other, at any depth, and imports stand in them. -/
theorem parse_namespaces {tokens : List Token} (ends : ∀ t ∈ tokens.getLast?, t.kind = .eof) {nextId next : Nat}
    {program : List Stmt} (parsed : parse tokens nextId = .ok (program, next)) {site : Site} {s : Stmt}
    (placed : ⟨site, .stmt s⟩ ∈ Placed.ofStmts .outermost program) :
    (∀ path decls, s.kind = .inNamespace path decls → site.inNamespace = false) ∧
    (∀ path kind attributes, s.kind = .use path kind attributes → site.inNamespace = true) := by
  have runs := parse_runs ends nextId
  rw [parsed] at runs
  have good := runs _ placed
  obtain ⟨pos, kind⟩ := s
  constructor
  · rintro path decls rfl
    exact good
  · rintro path kind attributes rfl
    exact good

/-- `namespace A` and, on the next line, `use B`. -/
theorem parse_namespaces_import :
    let tokens : List Token :=
      [⟨.namespaceKw, "namespace", none, ⟨0, 9, ""⟩⟩, ⟨.typeIdentifier, "A", none, ⟨10, 11, ""⟩⟩,
      ⟨.newline, "\n", none, ⟨11, 12, ""⟩⟩, ⟨.useKw, "use", none, ⟨12, 15, ""⟩⟩,
      ⟨.typeIdentifier, "B", none, ⟨16, 17, ""⟩⟩, ⟨.eof, "", none, ⟨17, 17, ""⟩⟩]
    let use : Stmt := ⟨⟨12, 17, ""⟩, .use (.ofName "B") .plain []⟩
    let program : List Stmt := [⟨⟨0, 17, ""⟩, .inNamespace (.ofName "A") [use]⟩]
    parse tokens 0 = .ok (program, 0) ∧
      ∃ site, ⟨site, .stmt use⟩ ∈ Placed.ofStmts .outermost program ∧ site.inNamespace = true := by
  intro tokens use program
  have parsed : parse tokens 0 = .ok (program, 0) := by rfl
  have placed : ⟨⟨true, false⟩, .stmt use⟩ ∈ Placed.ofStmts .outermost program := by simp [program, Site.outermost, use]
  exact ⟨parsed, _, placed, (parse_namespaces (by simp [tokens]) parsed placed).2 _ _ _ rfl⟩

/-! ## Methods without a body -/

namespace Grammar

structure Header where
  attributes : List Expr
  modifiers : List Modifier
  name : String
  params : List Param

def header (r : Rules) : Parser Header := do
  let attributes ← attributes r
  let modifiers ← writtenModifiers
  let name ← expect .identifier "a field name"
  let _ ← annotation? r
  let _ ← expect .leftParen "`(` after method name"
  let params ← params r (name.lexeme == Class.constructorName)
  let _ ← annotation? r
  return ⟨attributes, modifiers, name.lexeme, params⟩

inductive Members (r : Rules) (c : Cursor) : List Member → Cursor → Prop
  | start : Members r c [] c.skipNewlines
  | next {ms : List Member} {m : Member} {d d' : Cursor} (before : Members r c ms d) (more : d.peek.kind ≠ .rightBrace)
      (read : member r d = .ok (m, d')) : Members r c (ms ++ [m]) d'.skipNewlines

variable {r : Rules}

section
variable {C : Course} {n : Nat} (hr : r.Build C n)
include hr

theorem Members.lays (ready : C.Ready c) {ms : List Member} (h : Members r c ms d) :
    C.Ready d ∧ Steps [] c (ms.map .member) d := by
  induction h with
  | start =>
    obtain ⟨way, steps⟩ := Cursor.from_skipNewlines (n := n) ready []
    exact ⟨way.ready, steps⟩
  | @next ms m d d' before more read ih =>
    have built := (member_builds hr).lays (ms.map .member) d ih.1 trivial
    have laid := ((runs_of_eq read).mp built).1
    obtain ⟨way, steps⟩ := Cursor.from_skipNewlines (n := n) laid.way.ready ((ms ++ [m]).map .member)
    refine ⟨way.ready, (ih.2.trans ?_).trans steps⟩
    simpa using laid.steps

open BuildsIf in
theorem header_builds : Proceeds C n [] (header r) fun h => h.attributes.map .expr ++ h.params.map .param := by
  refine andThen (attributes_builds hr).lower fun attributes _ => andThen writtenModifiers_builds fun modifiers _ => ?_
  refine andThen (builds_expect rfl) fun name _ => andThen (annotation?_builds hr).lower fun _ _ => ?_
  refine andThen (builds_expect rfl) fun _ _ => andThen (params_builds hr _) fun params _ => ?_
  exact andThen (annotation?_builds hr).lower fun _ _ => builds_pure (by simp) trivial rfl

end

theorem header_parts (read : header r c = .ok (h, d)) :
    ∃ c₁ c₂ type c₃ c₄ result, attributes r c = .ok (h.attributes, c₁) ∧ writtenModifiers c₁ = .ok (h.modifiers, c₂) ∧
      c₂.peek.kind = .identifier ∧ c₂.peek.lexeme = h.name ∧ annotation? r c₂.advance = .ok (type, c₃) ∧
      c₃.peek.kind = .leftParen ∧ params r (h.name == Class.constructorName) c₃.advance = .ok (h.params, c₄) ∧
      annotation? r c₄ = .ok (result, d) := by
  have run : runs (header r) (fun h' d' => h' = h ∧ d' = d) (fun _ => False) c := (runs_of_eq read).mpr ⟨rfl, rfl⟩
  obtain ⟨attributes, c₁, read₁, run⟩ := (runs_bind.mp run).exists_ok
  obtain ⟨modifiers, c₂, read₂, run⟩ := (runs_bind.mp run).exists_ok
  rw [runs_bind, runs_expect] at run
  by_cases name : c₂.peek.kind = .identifier
  · obtain ⟨type, c₃, read₃, run⟩ := (runs_bind.mp (run.1 name)).exists_ok
    rw [runs_bind, runs_expect] at run
    by_cases paren : c₃.peek.kind = .leftParen
    · obtain ⟨params, c₄, read₄, run⟩ := (runs_bind.mp (run.1 paren)).exists_ok
      obtain ⟨result, d', read₅, run⟩ := (runs_bind.mp run).exists_ok
      obtain ⟨rfl, rfl⟩ := run
      exact ⟨c₁, c₂, type, c₃, c₄, result, read₁, read₂, name, rfl, read₃, paren, read₄, read₅⟩
    · exact (run.2 paren).elim
  · exact (run.2 name).elim

variable {E : SyntaxError → Prop}

theorem runs_endStatement {Q : Unit → Cursor → Prop}
    (bare : c.peek.kind ∈ [.newline, .semicolon, .rightBrace, .eof]) (h : ∀ d, Q () d) : runs endStatement Q E c := by
  unfold endStatement
  rw [runs_bind, runs_peek]
  split
  case h_1 | h_2 => exact h c
  case h_3 | h_4 =>
    rw [runs_bind, runs_advance, runs_newlines]
    exact h _
  case h_5 => simp_all

theorem member_of_header (front : c.peek.kind ≠ .useKw ∧ c.peek.kind ≠ .constKw)
    (read : header r c = .ok (h, d)) (concrete : .isAbstract ∉ h.modifiers)
    (bare : d.peek.kind ∈ [.newline, .semicolon, .rightBrace, .eof]) {Q : Member → Cursor → Prop}
    (accepted : d.inInterface = true → ∀ m d', m.name = h.name →
      (∃ f, m.kind = .method f ∧ f.params = h.params ∧ f.body = none) → Q m d')
    (refused : d.inInterface = false → E ⟨d.peek.pos, .expected "`\x7b` before method body"⟩) :
    runs (member r) Q E c := by
  obtain ⟨c₁, c₂, type, c₃, c₄, result, read₁, read₂, name, text, read₃, paren, read₄, read₅⟩ := header_parts read
  have notAbstract : (withVisibility h.modifiers).contains .isAbstract = false := by
    unfold withVisibility
    split <;> simpa using concrete
  have closed : (d.peek.kind == .leftBrace) = false := by
    rw [beq_eq_false_iff_ne]
    intro brace
    simp [brace] at bare
  unfold member
  rw [runs_bind, runs_peek, runs_bind, runs_take]
  refine ⟨fun found => absurd found front.1, fun _ => ?_⟩
  rw [if_neg (by simp), runs_bind, runs_take]
  refine ⟨fun found => absurd found front.2, fun _ => ?_⟩
  rw [if_neg (by simp)]
  unfold valueMember
  rw [runs_bind, runs_of_eq read₁, runs_bind, runs_of_eq read₂]
  rw [runs_bind, runs_expect]
  refine ⟨fun _ => ?_, fun other => absurd name other⟩
  rw [runs_bind, runs_of_eq read₃, runs_bind, runs_peek, paren]
  simp only [notAbstract, text]
  rw [runs_bind, runs_advance, runs_bind]
  unfold method
  rw [runs_bind, runs_of_eq read₄, runs_bind, runs_of_eq read₅, runs_bind, runs_get, runs_bind, runs_atKind, closed]
  cases mark : d.inInterface with
  | true =>
    simp only [Bool.false_or, Bool.not_false, Bool.and_self, if_true]
    rw [runs_bind]
    refine runs_endStatement bare fun d' => ?_
    exact accepted mark _ d' rfl ⟨_, rfl, rfl, rfl⟩
  | false =>
    rw [if_neg (by simp), runs_bind, runs_expect]
    exact ⟨fun brace => absurd brace (beq_eq_false_iff_ne.mp closed), fun _ => refused mark⟩

/-- Behind some members of a body that is entered at `c` comes a method, from `d` on, that is neither
abstract nor has a body: its header ends at `d'`, and so does the line. -/
structure Bodiless (r : Rules) (c : Cursor) (ms : List Member) (d : Cursor) (h : Header) (d' : Cursor) : Prop where
  members : Members r c ms d
  front : d.peek.kind ≠ .useKw ∧ d.peek.kind ≠ .constKw
  read : header r d = .ok (h, d')
  concrete : .isAbstract ∉ h.modifiers
  bare : d'.peek.kind ∈ [.newline, .semicolon, .rightBrace, .eof]

/-- The mark holds from the start of a body until an interface has been read. -/
theorem Bodiless.inInterface {n : Nat} {row : List Token} (hr : r.Build (.along row) n) {d' : Cursor}
    (inRow : c.Over row) {ms : List Member} (method : Bodiless r c ms d h d') :
    d'.inInterface = true ↔ c.inInterface = true ∧
      ∀ x ∈ Inside.ofMembers ms ++ Inside.ofExprs h.attributes ++ Inside.ofParams h.params, x.kind ≠ .interface := by
  obtain ⟨ready, before⟩ := method.members.lays hr (Course.along_ready.mpr inRow)
  have built := (header_builds hr).lays (ms.map .member) d ready trivial
  have laid := ((runs_of_eq method.read).mp built).1
  have meets : Outlook.Meets ⟨c.inNamespace, true, c.inInterface⟩ [] c := ⟨_, rfl, rfl, .inl rfl⟩
  obtain ⟨o, leads, mark, -⟩ := (before.trans (by simpa using laid.steps)).keep
    (fun step h => step.meets (fun _ => rfl) h) meets
  obtain ⟨o₁, members, parts⟩ := Outlook.leads_append.mp leads
  obtain ⟨rfl, -⟩ := members.members
  obtain ⟨rfl, -⟩ := parts.parts (by simp [Workpiece.isPart, or_imp, forall_and])
  have shown : (h.attributes.map Workpiece.expr ++ h.params.map Workpiece.param).any Workpiece.holdsInterface =
      (Inside.ofExprs h.attributes ++ Inside.ofParams h.params).any Class.isInterface := by
    simp [Workpiece.holdsInterface, Inside.ofExprs_eq, Inside.ofParams_eq, List.any_flatMap, List.any_map,
      Function.comp_def]
  have listed : ms.any Member.holdsInterface = (Inside.ofMembers ms).any Class.isInterface := by
    rw [Inside.ofMembers_eq, List.any_flatMap]
    rfl
  rw [mark, shown, listed, Bool.and_assoc, ← Bool.not_or, ← List.any_append, ← List.append_assoc]
  simp [Class.isInterface, or_imp, forall_and]

def interfaceHead (r : Rules) : Parser (String × List TypePath) := do
  let name ← expect .typeIdentifier "an interface name"
  newlines
  let interfaces ← after? .extendsKw do
    let interfaces ← separated (typePath r false)
    newlines
    return interfaces
  if ← atKind .implementsKw then fail .interfaceImplements
  let _ ← expect .leftBrace "`\x7b` before interface body"
  setInInterface true
  return (name.lexeme, interfaces.getD [])

def interfaceTail (r : Rules) (keyword : Token) (attributes : List Expr) (head : String × List TypePath) :
    Parser Stmt := do
  let members ← classBody r
  setInInterface false
  finishClass keyword fun pos =>
    { name := head.1, kind := .interface, parent := none, interfaces := head.2, members := members.map asAbstract,
      attributes, pos }

theorem interfaceDeclaration_eq (r : Rules) (attributes : List Expr) :
    interfaceDeclaration r attributes = previous >>= fun keyword =>
      interfaceHead r >>= interfaceTail r keyword attributes := by
  unfold interfaceDeclaration interfaceHead
  simp only [bind_assoc]
  refine bind_congr fun keyword => bind_congr fun name => bind_congr fun _ => bind_congr fun interfaces => ?_
  refine bind_congr fun implements => ?_
  cases implements with
  | false => simp only [Bool.false_eq_true, if_false, bind_assoc, pure_bind, interfaceTail]
  | true => simp only [if_true, bind_assoc, pure_bind, interfaceTail]

variable {head : String × List TypePath}

theorem interfaceDeclaration_head
    (read : interfaceHead r c = .ok (head, d)) (attributes : List Expr) :
    interfaceDeclaration r attributes c = interfaceTail r c.previous attributes head d := by
  rw [interfaceDeclaration_eq]
  have keyword : previous c = .ok (c.previous, c) := rfl
  simp only [bind, StateT.bind, Except.bind, keyword, read]

theorem interfaceHead_inInterface
    (read : interfaceHead r c = .ok (head, d)) : d.inInterface = true := by
  have brace {head : String × List TypePath} (c : Cursor) : wp (do
      let _ ← expect .leftBrace "`\x7b` before interface body"
      setInInterface true
      return head) (fun _ d => d.inInterface = true) c := by
    rw [wp_bind]
    intro _ c' _
    unfold setInInterface
    rw [wp_bind, wp_modify, wp_pure]
  have marked : wp (interfaceHead r) (fun _ d => d.inInterface = true) c := by
    unfold interfaceHead
    rw [wp_bind]
    intro name c₁ _
    rw [wp_bind]
    intro _ c₂ _
    rw [wp_bind]
    intro interfaces c₃ _
    rw [wp_bind]
    intro implements c₄ _
    cases implements with
    | false => exact brace c₄
    | true =>
      refine wp_bind.mpr fun _ c₅ _ => ?_
      exact brace c₅
  exact marked head d read

end Grammar

/-- In every program a method of a class or trait that is abstract has no body, and one that has none
is abstract or exempt. In a body, a method that is not abstract is accepted without a body exactly if
the mark was set at the start of the body and no interface has been read since; else it is refused
where its body should start. The body of an interface starts with the mark set. -/
theorem method_bodies {tokens : List Token} (ends : ∀ t ∈ tokens.getLast?, t.kind = .eof) (nextId : Nat) :
    (∀ program next, parse tokens nextId = .ok (program, next) →
      ∀ site kind m f, ⟨site, .member kind m⟩ ∈ Placed.ofStmts .outermost program → kind ≠ .interface →
        m.kind = .method f →
        (m.has .isAbstract = true → f.body = none) ∧ (f.body = none → m.has .isAbstract = true ∨ site.exempt = true)) ∧
    (∀ n c d d' ms h, c.Over tokens → Grammar.Bodiless (.upTo n) c ms d h d' →
      if c.inInterface = true ∧
        ∀ x ∈ Inside.ofMembers ms ++ Inside.ofExprs h.attributes ++ Inside.ofParams h.params, x.kind ≠ .interface
      then ∃ m d'', Grammar.member (.upTo n) d = .ok (m, d'') ∧ m.name = h.name ∧
        ∃ f, m.kind = .method f ∧ f.params = h.params ∧ f.body = none
      else Grammar.member (.upTo n) d = .error ⟨d'.peek.pos, .expected "`\x7b` before method body"⟩) ∧
    (∀ n attributes c d head, Grammar.interfaceHead (.upTo n) c = .ok (head, d) → d.inInterface = true ∧
      Grammar.interfaceDeclaration (.upTo n) attributes c =
        Grammar.interfaceTail (.upTo n) c.previous attributes head d) := by
  refine ⟨?_, ?_, ?_⟩
  · intro program next parsed site kind m f placed plain isMethod
    have runs := parse_runs ends nextId
    rw [parsed] at runs
    exact runs _ placed plain f isMethod
  · intro n c d d' ms h inRow method
    have mark := method.inInterface (Rules.upTo_over tokens n) inRow
    have outcome {Q : Member → Cursor → Prop} {E : SyntaxError → Prop} :=
      Grammar.member_of_header method.front method.read method.concrete method.bare (Q := Q) (E := E)
    split
    · rename_i free
      refine (outcome (fun _ m d'' name isMethod => ?_) fun off => ?_).exists_ok
      · exact ⟨name, isMethod⟩
      · simp [mark.mpr free] at off
    · rename_i bound
      obtain ⟨e, run, rfl⟩ := (outcome (E := (· = _)) (fun on => absurd (mark.mp on) bound) fun _ => rfl).exists_error
      exact run
  · intro n attributes c d head read
    exact ⟨Grammar.interfaceHead_inInterface read, Grammar.interfaceDeclaration_head read attributes⟩

/-- A class with the abstract method `f()`, and an interface whose body starts with `f()`. -/
theorem method_bodies_first :
    let left : Token := ⟨.leftBrace, "\x7b", none, ⟨8, 9, ""⟩⟩
    let name : Token := ⟨.identifier, "f", none, ⟨19, 20, ""⟩⟩
    let opening : Token := ⟨.leftParen, "(", none, ⟨20, 21, ""⟩⟩
    let closing : Token := ⟨.rightParen, ")", none, ⟨21, 22, ""⟩⟩
    let right : Token := ⟨.rightBrace, "\x7d", none, ⟨23, 24, ""⟩⟩
    let eof : Token := ⟨.eof, "", none, ⟨24, 24, ""⟩⟩
    let tokens : List Token := [⟨.classKw, "class", none, ⟨0, 5, ""⟩⟩, ⟨.typeIdentifier, "A", none, ⟨6, 7, ""⟩⟩, left,
      ⟨.abstractKw, "abstract", none, ⟨10, 18, ""⟩⟩, name, opening, closing, right, eof]
    let f : Func := ⟨"f", [], none, none, [], ⟨10, 22, ""⟩⟩
    let m : Member := ⟨"f", .method f, [.isPublic, .isAbstract], [], ⟨10, 22, ""⟩⟩
    let program : List Stmt := [⟨⟨0, 24, ""⟩, .cls ⟨"A", .plain, none, [], [m], [], ⟨0, 24, ""⟩⟩⟩]
    let c : Cursor := ⟨left, [name, opening, closing, right], eof, false, true, 0⟩
    (parse tokens 0 = .ok (program, 0) ∧
      ∃ site, ⟨site, .member .plain m⟩ ∈ Placed.ofStmts .outermost program ∧ f.body = none) ∧
    ∃ m d, Grammar.member (.upTo 2) c = .ok (m, d) ∧ m.name = "f" ∧
      ∃ f, m.kind = .method f ∧ f.params = [] ∧ f.body = none := by
  intro left name opening closing right eof tokens f m program c
  have parsed : parse tokens 0 = .ok (program, 0) := by rfl
  have placed : ⟨.outermost, .member .plain m⟩ ∈ Placed.ofStmts .outermost program := by
    simp [program, Site.outermost, Site.inBody]
  have ends : ∀ t ∈ tokens.getLast?, t.kind = .eof := by simp [tokens, eof]
  obtain ⟨programs, bodies, -⟩ := method_bodies ends 0
  have abstract := programs program 0 parsed _ _ m f placed (by simp) rfl
  have inRow : c.Over tokens := by
    constructor
    case previous => simp [c, tokens]
    case rest => simp [c, tokens, name, opening, closing, right]
    case eof => simp [c, tokens, eof]
  have method : Grammar.Bodiless (.upTo 2) c [] c ⟨[], [], "f", []⟩ ⟨closing, [right], eof, false, true, 0⟩ := by
    constructor
    case members => exact .start
    case front => simp [c, name, Cursor.peek]
    case read => rfl
    case concrete => simp
    case bare => simp [right, Cursor.peek]
  exact ⟨⟨parsed, _, placed, abstract.1 (by decide)⟩, by simpa [c] using bodies 2 _ _ _ _ _ inRow method⟩

def Placed.isBare : Placed → Bool
  | ⟨_, .member .plain ⟨_, .method f, modifiers, _, _⟩⟩ => f.body.isNone && !modifiers.contains .isAbstract
  | _ => false

namespace Parsed

def program : Parsed → List Stmt
  | .ok (program, _) => program
  | .error _ => []

def violation? : Parsed → Option SyntaxError
  | .ok _ => none
  | .error e => some e

theorem eq_error {p : Parsed} {e : SyntaxError} (h : p.violation? = some e) : p = .error e := by
  cases p with
  | ok result => cases h
  | error e' => exact congrArg _ (Option.some.inj h)

end Parsed

/-- In a method of an interface, a class may have a method without a body. Behind a method that has an
interface inside, the outer interface may not. -/
theorem interface_mark_elsewhere :
    (∃ program next,
      parse (scan "interface I \x7b\n  f() \x7b\n    class A \x7b g() \x7d\n  \x7d\n\x7d" "").tokens 0 =
      .ok (program, next) ∧
      ∃ site m f, ⟨site, .member .plain m⟩ ∈ Placed.ofStmts .outermost program ∧ m.kind = .method f ∧
        m.has .isAbstract = false ∧ f.body = none) ∧
    parse (scan "interface I \x7b\n  f() \x7b\n    interface J \x7b\x7d\n  \x7d\n  g()\n\x7d" "").tokens 0 =
      .error ⟨⟨50, 51, ""⟩, .expected "`\x7b` before method body"⟩ := by
  constructor
  · have bare : (Placed.ofStmts .outermost (Parsed.program (parse
        (scan "interface I \x7b\n  f() \x7b\n    class A \x7b g() \x7d\n  \x7d\n\x7d" "").tokens 0))).any
          Placed.isBare = true := by decide +kernel
    obtain ⟨x, placed, bare⟩ := List.any_eq_true.mp bare
    cases parsed : parse (scan "interface I \x7b\n  f() \x7b\n    class A \x7b g() \x7d\n  \x7d\n\x7d" "").tokens 0 with
    | error e =>
      rw [parsed] at placed
      exact absurd placed List.not_mem_nil
    | ok result =>
      rw [parsed] at placed
      obtain ⟨program, next⟩ := result
      unfold Placed.isBare at bare
      split at bare
      · simp only [Bool.and_eq_true, Bool.not_eq_true', Option.isNone_iff_eq_none] at bare
        exact ⟨program, next, rfl, _, _, _, placed, rfl, bare.2, bare.1⟩
      · cases bare
  · exact Parsed.eq_error (by decide +kernel)

end PhaseLang
