import PhaseLang.Proofs.Php.Parts
import PhaseLang.Proofs.Php.Reader

/-!
# Neat trees

A PHP tree is neat if its text is balanced at every depth: it is if its parts are and the names in it are
balanced.
-/

namespace PhaseLang.Php

def Expr.Neat (e : Expr) : Prop := ∀ depth, Balanced (Printer.expr depth e)

def Stmt.Neat (s : Stmt) : Prop := ∀ depth, Balanced (Printer.stmt depth s)

def neat : Asks := ⟨Expr.Neat, Stmt.Neat, Balanced, Literal.Clean⟩

/-! ## Parts of texts -/

variable {value : Option String}

namespace Printer

theorem balanced_newline (depth : Nat) : Balanced (newline depth) := by
  refine .append (by decide) (balanced_of_quiet fun c hc => ?_)
  rw [indent, Text.fill, String.toList_ofList] at hc
  obtain rfl := List.eq_of_mem_replicate hc
  decide

theorem balanced_commas {texts : List String} (h : ∀ t ∈ texts, Balanced t) : Balanced (commas texts) :=
  balanced_intercalate (by decide) h

theorem balanced_braces {text : String} (h : Balanced text) : Balanced (braces text) :=
  .enclosed ['\x7d'] (by decide) h (by decide)

theorem balanced_parens {texts : List String} (h : ∀ t ∈ texts, Balanced t) : Balanced (parens texts) :=
  .enclosed [')'] (by decide) (balanced_commas h) (by decide)

theorem balanced_braced {lines : String} (h : Balanced lines) (depth : Nat) : Balanced (braced depth lines) :=
  balanced_braces (h.append (balanced_newline depth))

variable {names : List String}

theorem balanced_dollarNames (h : ∀ name ∈ names, Balanced name) : Balanced (dollarNames names) := by
  refine balanced_commas fun t ht => ?_
  obtain ⟨name, found, rfl⟩ := List.mem_map.mp ht
  exact .append (by decide) (h name found)

theorem balanced_captured (h : ∀ name ∈ names, Balanced name) : Balanced (captured names) := by
  unfold captured
  split
  · decide
  · exact .enclosed [')'] (by decide) (balanced_dollarNames h) (by decide)

theorem balanced_resultType {type : Option String} (h : ∀ t ∈ type, Balanced t) : Balanced (resultType type) := by
  cases type with
  | none => decide
  | some type => exact .append (by decide) (h type rfl)

theorem balanced_attributeLine {attributes : List String} (h : ∀ t ∈ attributes, Balanced t) (depth : Nat) :
    Balanced (attributeLine depth attributes) := by
  unfold attributeLine
  split
  · decide
  · exact (Balanced.enclosed [']'] (by decide) (balanced_commas h) (by decide)).append
      (balanced_newline depth)

theorem balanced_initial (h : ∀ t ∈ value, Balanced t) : Balanced (initial value) := by
  cases value with
  | none => decide
  | some value => exact .append (by decide) (h value rfl)

theorem balanced_onNextLine {s : Stmt} (h : s.Neat) (depth : Nat) : Balanced (onNextLine depth (stmt · s)) :=
  (balanced_newline depth).append (h depth)

theorem balanced_binaryOp (op : BinaryOp) : Balanced op.text := by
  cases op <;> decide

theorem balanced_unaryOp (op : UnaryOp) : Balanced op.text := by
  cases op <;> decide

theorem balanced_useWords (isFunction : Bool) : Balanced ("use " ++ importLine.keyword isFunction) := by
  cases isFunction <;> decide

theorem balanced_single (isFunction : Bool) {name : String} (h : Balanced name) :
    Balanced (importLine (.single isFunction name)) :=
  ((balanced_useWords isFunction).append h).append (by decide)

theorem balanced_renamed (isFunction : Bool) {name newName : String} (h : Balanced name) (hn : Balanced newName) :
    Balanced (importLine (.renamed isFunction name newName)) :=
  ((((balanced_useWords isFunction).append h).append (by decide)).append hn).append (by decide)

theorem balanced_group (isFunction : Bool) {ns : String} (h : Balanced ns)
    (hn : ∀ name ∈ names, Balanced name) : Balanced (importLine (.group isFunction ns names)) :=
  ((((balanced_useWords isFunction).append h).append (by decide)).append
    (balanced_braces (balanced_commas hn))).append (by decide)

/-! ## Lists of trees -/

section
variable (depth : Nat)

theorem balanced_optional {e : Option Expr} (h : ∀ x ∈ e, x.Neat) : ∀ t ∈ optional depth e, Balanced t := by
  cases e with
  | none => simp [optional]
  | some e => simpa [optional] using h e rfl depth

theorem balanced_exprs : ∀ {es : List Expr}, (∀ e ∈ es, e.Neat) → ∀ t ∈ exprs depth es, Balanced t
  | [], _ => by simp [exprs]
  | e :: es, h => by
    simp only [List.forall_mem_cons, exprs] at h ⊢
    exact ⟨h.1 depth, balanced_exprs h.2⟩

theorem balanced_args : ∀ {as : List Arg}, (∀ a ∈ as, neat.Arg a) → ∀ t ∈ args depth as, Balanced t
  | [], _ => by simp [args]
  | ⟨none, value⟩ :: as, h => by
    simp only [List.forall_mem_cons, args] at h ⊢
    exact ⟨h.1.value depth, balanced_args h.2⟩
  | ⟨some name, value⟩ :: as, h => by
    simp only [List.forall_mem_cons, args] at h ⊢
    exact ⟨((h.1.name name rfl).append (by decide)).append (h.1.value depth), balanced_args h.2⟩

theorem balanced_entries : ∀ {es : List Entry}, (∀ e ∈ es, neat.Entry e) → Balanced (entries depth es)
  | [], _ => by simp only [entries]; decide
  | ⟨key, value⟩ :: es, h => by
    simp only [List.forall_mem_cons, entries] at h ⊢
    exact ((((balanced_newline depth).append (h.1.key depth)).append (by decide)).append (h.1.value depth)).append
      (by decide) |>.append (balanced_entries h.2)

theorem balanced_arms : ∀ {as : List Arm}, (∀ a ∈ as, neat.Arm a) → Balanced (arms depth as)
  | [], _ => by simp only [arms]; decide
  | ⟨condition, value⟩ :: as, h => by
    simp only [List.forall_mem_cons, arms] at h ⊢
    have head : Balanced ((optional depth condition).getD "default") := by
      cases condition with
      | none => simp only [optional, Option.getD_none]; decide
      | some e => exact h.1.condition e rfl depth
    exact ((((balanced_newline depth).append head).append (by decide)).append (h.1.value depth)).append
      (by decide) |>.append (balanced_arms h.2)

theorem balanced_params : ∀ {ps : List Param}, (∀ p ∈ ps, neat.Param p) → ∀ t ∈ params depth ps, Balanced t
  | [], _ => by simp [params]
  | ⟨type, name, default, variadic⟩ :: ps, h => by
    simp only [List.forall_mem_cons, params] at h ⊢
    refine ⟨?_, balanced_params h.2⟩
    have dots : Balanced (if variadic then "..." else "") := by cases variadic <;> decide
    have value := balanced_initial (balanced_optional depth h.1.default)
    refine .append (.append (.append (.append ?_ dots) (by decide)) h.1.name) value
    cases type with
    | none => decide
    | some type => exact (h.1.type type rfl).append (by decide)

theorem balanced_stmts : ∀ {ss : List Stmt}, (∀ s ∈ ss, s.Neat) → Balanced (stmts depth ss)
  | [], _ => by simp only [stmts]; decide
  | s :: ss, h => by
    simp only [List.forall_mem_cons, stmts] at h ⊢
    exact ((balanced_newline depth).append (h.1 depth)).append (balanced_stmts h.2)

theorem balanced_cases : ∀ {cs : List Case}, (∀ c ∈ cs, neat.Case c) → Balanced (cases depth cs)
  | [], _ => by simp only [cases]; decide
  | ⟨condition, body⟩ :: cs, h => by
    simp only [List.forall_mem_cons, cases] at h ⊢
    refine .append (.append (.append (.append (.append (balanced_newline depth) ?_) ?_) ?_) (by decide)) ?_
    · cases condition with
      | none => simp only [optional]; decide
      | some e => exact (Balanced.append (by decide) (h.1.condition e rfl depth)).append (by decide)
    · exact balanced_stmts (depth + 1) h.1.body
    · exact balanced_newline (depth + 1)
    · exact balanced_cases h.2

theorem balanced_methods : ∀ {ms : List Method}, (∀ m ∈ ms, neat.Method m) → ∀ t ∈ methods depth ms, Balanced t
  | [], _ => by simp [methods]
  | ⟨modifiers, name, ps, result, body⟩ :: ms, h => by
    simp only [List.forall_mem_cons, methods] at h ⊢
    refine ⟨?_, balanced_methods h.2⟩
    have words : Balanced (" ".intercalate modifiers) := balanced_intercalate (by decide) h.1.modifiers
    have parameters := balanced_parens (balanced_params depth h.1.params)
    refine ((((words.append ?_).append h.1.name).append parameters).append (balanced_resultType h.1.result)).append ?_
    · decide
    cases body with
    | none => simp only [methodBody]; decide
    | some ss =>
      exact (balanced_newline depth).append (balanced_braced (balanced_stmts (depth + 1) (h.1.body ss rfl)) depth)

theorem balanced_memberKind : ∀ {kind : MemberKind}, neat.MemberKind kind → Balanced (memberKind depth kind)
  | .use _, h => (Balanced.append (by decide) h).append (by decide)
  | .field _ _, h =>
    ((balanced_intercalate (by decide) h.1).append (balanced_initial (balanced_optional depth h.2))).append (by decide)
  | .methods _, h => balanced_intercalate (balanced_newline depth) (balanced_methods depth h)

theorem balanced_members : ∀ {ms : List Member}, (∀ m ∈ ms, neat.Member m) → Balanced (members depth ms)
  | [], _ => by simp only [members]; decide
  | ⟨as, kind⟩ :: ms, h => by
    simp only [List.forall_mem_cons, members] at h ⊢
    exact (((balanced_newline depth).append (balanced_attributeLine (balanced_exprs depth h.1.attributes) depth)).append
      (balanced_memberKind depth h.1.kind)).append (balanced_members h.2)

end

end Printer

open Printer

/-! ## Forms of trees -/

theorem Expr.neat_of_parts : ∀ {e : Expr}, neat.Parts e → e.Neat
  | .var _, h => fun _ => .append (by decide) h
  | .this, _ => fun _ => (by decide : Balanced "$this")
  | .static, _ => fun _ => (by decide : Balanced "static")
  | .name _, h => fun _ => h
  | .parent _, h => fun _ => .append (by decide) h
  | .literal _, h => fun _ => balanced_literal h
  | .list _, h => fun depth => .enclosed [']'] (by decide) (balanced_commas (balanced_exprs depth h)) (by decide)
  | .map [], _ => fun _ => (by decide : Balanced "[]")
  | .map (entry :: entries), h => fun depth => by
    have lines := (balanced_entries (depth + 1) h).append (balanced_newline depth)
    have text : Balanced ("[" ++ (Printer.entries (depth + 1) (entry :: entries) ++ newline depth) ++ "]") :=
      .enclosed [']'] (by decide) lines (by decide)
    simpa only [Printer.expr, String.append_assoc] using text
  | .group _, h => fun depth => .enclosed [')'] (by decide) (h depth) (by decide)
  | .assign _ _, h => fun depth => ((h.1 depth).append (by decide)).append (h.2 depth)
  | .binary _ op _, h => fun depth =>
    ((((h.1 depth).append (by decide)).append (balanced_binaryOp op)).append (by decide)).append (h.2 depth)
  | .before op _, h => fun depth => (balanced_unaryOp op).append (h depth)
  | .after _ op, h => fun depth => Balanced.append (h depth) (balanced_unaryOp op)
  | .ternary _ _ _, h => fun depth =>
    ((((h.1 depth).append (by decide)).append (h.2.1 depth)).append (by decide)).append (h.2.2 depth)
  | .instanceOf _ _, h | .member _ _, h | .classMember _ _, h | .classVar _ _, h => fun depth =>
    ((h.1 depth).append (by decide)).append h.2
  | .call _ _, h => fun depth => (h.1 depth).append (balanced_parens (balanced_args depth h.2))
  | .create _ _, h => fun depth =>
    (Balanced.append (by decide) (h.1 depth)).append (balanced_parens (balanced_args depth h.2))
  | .attribute _ [], h => fun _ => h.1
  | .attribute _ (_ :: _), h => fun depth => Balanced.append h.1 (balanced_parens (balanced_args depth h.2))
  | .functionRef _, h => fun _ => Balanced.append h (by decide)
  | .computed _ _, h => fun depth => ((h.1 depth).append (by decide)).append (balanced_braces (h.2 depth))
  | .index e i, h => fun depth => by
    have opening : Moves (Printer.expr depth e ++ "[") [] [']'] := Moves.append (h.1 depth) (by decide)
    refine (opening.through ?_).append (by decide)
    cases i with
    | none => exact (by decide : Balanced "")
    | some i => exact h.2 i rfl depth
  | .spread _, h | .raise _, h => fun depth => .append (by decide) (h depth)
  | .closure _ _ _ _, h => fun depth =>
    ((((Balanced.append (by decide) (balanced_parens (balanced_params depth h.1))).append
      (balanced_captured h.2.1)).append (balanced_resultType h.2.2.1)).append (by decide)).append
      (balanced_braced (balanced_stmts (depth + 1) h.2.2.2) depth)
  | .choose _ _, h => fun depth =>
    (Balanced.enclosed [')'] (by decide) (h.1 depth) (by decide)).append
      (balanced_braced (balanced_arms (depth + 1) h.2) depth)

theorem Class.neat_of_parts {c : Class} (h : neat.Class c) : (Stmt.cls c).Neat := by
  intro depth
  obtain ⟨attributes, keyword, name, parent, interfaces, isInterface, members, afterwards⟩ := c
  have head : Balanced (classHead ⟨[], keyword, name, parent, interfaces, isInterface, [], []⟩) := by
    refine .append (.append ((Balanced.append h.keyword (by decide)).append h.name) ?_) ?_
    · cases parent with
      | none => exact (by decide : Balanced "")
      | some parent => exact .append (by decide) (h.parent parent rfl)
    · split
      · decide
      · refine .append ?_ (balanced_commas h.interfaces)
        exact (by cases isInterface <;> decide : Balanced (if isInterface then " extends " else " implements "))
  exact ((((balanced_attributeLine (balanced_exprs depth h.attributes) depth).append head).append
    (balanced_newline depth)).append (balanced_braced (balanced_members (depth + 1) h.members) depth)).append
    (balanced_stmts depth h.afterwards)

theorem Stmt.neat_of_parts : ∀ {s : Stmt}, neat.StmtParts s → s.Neat
  | .expr _, h => fun depth => Balanced.append (h depth) (by decide)
  | .imports _, h => fun depth => by
    refine balanced_intercalate (balanced_newline depth) fun t ht => ?_
    obtain ⟨line, found, rfl⟩ := List.mem_map.mp ht
    exact h line found
  | .inNamespace _ _, h => fun depth =>
    ((Balanced.append (by decide) h.1).append (by decide)).append
      (balanced_braced (balanced_stmts (depth + 1) h.2) depth)
  | .global _, h => fun _ => (Balanced.append (by decide) h).append (by decide)
  | .attempt _ _, h => fun depth =>
    (Balanced.append (by decide) (balanced_onNextLine h.1 _)).append (balanced_stmts depth h.2)
  | .handler _ _ _, h => fun depth => by
    have opening : Moves "catch (" [] [')'] := by decide
    have head := ((opening.through h.1).through (t := " $") (by decide)).through h.2.1
    exact Balanced.append (head.append (by decide)) (balanced_onNextLine h.2.2 _)
  | .whileLoop _ _, h => fun depth =>
    (Balanced.enclosed [')'] (by decide) (h.1 depth) (by decide)).append (balanced_onNextLine h.2 _)
  | .doLoop s _, h => fun depth => by
    have body : Balanced ("do" ++ onNextLine (depth + inset s) (Printer.stmt · s) ++ newline depth) :=
      (Balanced.append (by decide) (balanced_onNextLine h.2 _)).append (balanced_newline depth)
    have opening : Moves "while (" [] [')'] := by decide
    exact ((Moves.append body opening).through (h.1 depth)).append (by decide)
  | .forRange _ _ _ _, ⟨hk, hl, hu, _, h⟩ => fun depth => by
    have opening : Moves "for ($" [] [')'] := by decide
    have init := ((opening.through hk).through (t := " = ") (by decide)).through (hl depth)
    have test :=
      (((init.through (t := "; $") (by decide)).through hk).through (t := " < ") (by decide)).through (hu depth)
    have head := (test.through (t := "; $") (by decide)).through hk
    exact Balanced.append (head.append (by decide)) (balanced_onNextLine h _)
  | .forEach _ _ value _, ⟨he, hk, hv, h⟩ => fun depth => by
    have opening : Moves "foreach (" [] [')'] := by decide
    have head := ((opening.through (he depth)).through (t := " as $") (by decide)).through hk
    refine Balanced.append ((head.through ?_).append (by decide)) (balanced_onNextLine h _)
    cases value with
    | none => exact (by decide : Balanced "")
    | some value => exact .append (by decide) (hv value rfl)
  | .branch e s no, ⟨he, h, hn⟩ => fun depth => by
    have head : Balanced ("if (" ++ Printer.expr depth e ++ ")") := .enclosed [')'] (by decide) (he depth) (by decide)
    refine (head.append (balanced_onNextLine h (depth + inset s))).append ?_
    cases no with
    | none => simp only [otherwise]; decide
    | some no => exact ((balanced_newline depth).append (by decide)).append (balanced_onNextLine (hn no rfl) _)
  | .switch _ _, h => fun depth =>
    ((Balanced.enclosed [')'] (by decide) (h.1 depth) (by decide)).append (balanced_newline depth)).append
      (balanced_braced (balanced_cases (depth + 1) h.2) depth)
  | .block _, h => fun depth => balanced_braced (balanced_stmts (depth + 1) h) depth
  | .ret none, _ => fun _ => (by decide : Balanced "return;")
  | .ret (some e), h => fun depth => (Balanced.append (by decide) (h e rfl depth)).append (by decide)
  | .func _ ⟨_, _, _, _⟩, h => fun depth => by
    have head :=
      (((balanced_attributeLine (balanced_exprs depth h.1) depth).append (t := "function ") (by decide)).append
      h.2.name).append (balanced_parens (balanced_params depth h.2.params))
    exact ((head.append (balanced_resultType h.2.result)).append (balanced_newline depth)).append
      (balanced_braced (balanced_stmts (depth + 1) h.2.body) depth)
  | .cls _, h => Class.neat_of_parts h

theorem balanced_program {ss : List Stmt} (h : ∀ s ∈ ss, s.Neat) : Balanced (Printer.program ss) := by
  refine .append (by decide) (balanced_join fun t ht => ?_)
  obtain ⟨s, found, rfl⟩ := List.mem_map.mp ht
  exact (h s found 0).append (by decide)

end PhaseLang.Php
