import PhaseLang.Grammar.Program
import PhaseLang.Proofs.Grammar.BuildingExpressions

/-!
# What the rules for statements and declarations build

Each rule for statements, classes and declarations, given what the rules it recurs through build one
level lower, and from them what the closed rules build.
-/

namespace PhaseLang.Grammar

open PhaseLang.Parser Workpiece
open BuildsIf (andThen reading taking entering)

variable {β : Type} {P : β → Prop} {A : β → List Workpiece}

variable {C : Course} {n : Nat} {r : Rules} (hr : r.Build C n)
include hr

/-! ## Attributes -/

theorem attributeEntry_builds : Strides C (n + 1) [] (attributeEntry r) fun e => [.expr e] := by
  refine builds_peek fun start _ => BuildsIf.starting (fun _ h => h.2) (typePath_builds hr false).any fun path _ => ?_
  refine andThen (builds_after? rfl (by simp) (arguments_builds hr).loosen) fun args _ => ?_
  refine builds_spanFrom (by simp) fun pos _ => builds_node ?_ trivial (by simp) Bool.noConfusion fun _ _ _ => trivial
  cases args <;> simp [ExprKind.pieces]

theorem attributes_builds : Proceeds C (n + 1) [] (attributes r) fun es => es.map .expr := by
  refine builds_iterate (fun es : List Expr => es.map .expr) (fun _ => True) trivial rfl fun found _ => ?_
  refine builds_look (g := fun c => c.peek.kind == .leftBracket &&
    (c.peekNext.kind == .typeIdentifier || c.peekNext.kind == .colonColon)) (fun _ => rfl) (fun Z c fits more => ?_)
    fun c _ _ => ?_
  · have next {kind : TokenKind} (inner : kind.isInner = true) :
        ((c.extend Z).peekNext.kind == kind) = (c.peekNext.kind == kind) := by
      rw [Bool.eq_iff_iff, beq_iff_eq, beq_iff_eq, Cursor.peekNext_extend_kind fits inner more]
    rw [Cursor.peek_extend more, next rfl, next rfl]
  refine builds_ite (fun h => ?_) fun _ => builds_pure (by simp) trivial rfl
  refine reading (builds_advance fun d hd => ?_) fun _ _ => ?_
  · have found := hd.2.trans h
    rw [Bool.and_eq_true] at found
    exact TokenKind.isPlain_of_beq found.1 rfl
  refine andThen (builds_separated (fun _ => rfl) (attributeEntry_builds hr)) fun entries _ => ?_
  refine andThen builds_newlines fun _ _ => andThen (builds_expect rfl) fun _ _ => andThen builds_newlines fun _ _ => ?_
  exact builds_pure (by simp) trivial rfl

/-! ## Statements -/

theorem variableDeclaration_builds : Strides C n [] (variableDeclaration r) fun s => [.stmt s] := by
  refine builds_previous fun keyword _ => reading (builds_expect rfl) fun name _ => ?_
  refine andThen (annotation?_builds hr).lower fun type _ => ?_
  have init : Builds C (fun _ => false) n [] (do
      newlines
      r.expression) (·.StandsAt 0) fun e => [.expr e] := andThen builds_newlines fun _ _ => hr.expression.loosen
  refine andThen (builds_after? rfl (fun _ => rfl) init).lower fun init _ => ?_
  refine builds_spanFrom (by simp) fun pos _ => andThen builds_endStatement fun _ _ => builds_stmt ?_ (by simp) trivial
  simp [StmtKind.pieces]

omit hr in
theorem globalDeclaration_builds : Strides C n [] globalDeclaration fun s => [.stmt s] := by
  refine builds_previous fun keyword _ => reading (builds_expect rfl) fun name _ => ?_
  refine BuildsIf.spanning (a := keyword.pos) (b := name.pos) ?_ (by simp) (by simp)
  exact andThen builds_endStatement fun _ _ => builds_stmt rfl (by simp) trivial

theorem ifStatement_builds : Strides C n [] (ifStatement r) fun s => [.stmt s] := by
  refine builds_previous fun keyword _ => reading (condition_builds hr _) fun cond _ => ?_
  refine andThen hr.statement fun yes _ => BuildsIf.blocking (andThen (builds_takeOnNextLine rfl) fun more _ => ?_)
  refine builds_ite (fun _ => ?_) fun _ => builds_pure_bind ?_
  · refine andThen builds_newlines fun _ _ => andThen hr.statement fun no _ => builds_pure_bind (BuildsIf.blocking ?_)
    refine builds_spanFrom (by simp) fun pos _ => builds_stmt ?_ (by simp) trivial
    simp [StmtKind.pieces]
  · refine builds_spanFrom (by simp) fun pos _ => builds_stmt ?_ (by simp) trivial
    simp [StmtKind.pieces]

theorem returnStatement_builds : Proceeds C n [] (returnStatement r) fun s => [.stmt s] := by
  refine builds_previous fun keyword _ => builds_peek fun next _ => ?_
  have finish (value : Option Expr) : Proceeds C n ([.place keyword.pos] ++ value.toList.map .expr) (do
      let pos ← spanFrom keyword
      endStatement
      return (⟨pos, .ret value⟩ : Stmt)) fun s => [.stmt s] := by
    refine builds_spanFrom (by simp) fun pos _ => andThen builds_endStatement fun _ _ =>
      builds_stmt ?_ (by simp) trivial
    simp [StmtKind.pieces]
  split
  iterate 4 exact builds_pure_bind (finish none).any
  exact reading hr.expression.any fun e _ => builds_pure_bind (finish (some e))

theorem throwStatement_builds : Strides C n [] (throwStatement r) fun s => [.stmt s] := by
  refine builds_previous fun keyword _ => reading hr.expression fun value _ => builds_spanFrom (by simp) fun pos _ => ?_
  exact andThen builds_endStatement fun _ _ => builds_stmt rfl (by simp) trivial

theorem whileStatement_builds : Strides C n [] (whileStatement r) fun s => [.stmt s] := by
  refine builds_previous fun keyword _ => reading (condition_builds hr _) fun cond _ => ?_
  refine andThen hr.statement fun body _ => builds_spanFrom (by simp) fun pos _ => ?_
  exact builds_stmt rfl (by simp) trivial

theorem doStatement_builds : Strides C n [] (doStatement r) fun s => [.stmt s] := by
  refine builds_previous fun keyword _ => andThen builds_newlines fun _ _ => reading hr.statement fun body _ => ?_
  refine andThen (builds_takeOnNextLine rfl) fun more _ => builds_ite (fun _ => ?_) fun _ => builds_fail rfl
  refine andThen (builds_expect rfl) fun _ _ => andThen hr.expression fun cond _ => ?_
  refine andThen (builds_expect rfl) fun _ _ => builds_spanFrom (by simp) fun pos _ => ?_
  exact andThen builds_endStatement fun _ _ => builds_stmt rfl (by simp) trivial

theorem forStatement_builds : Strides C n [] (forStatement r) fun s => [.stmt s] := by
  refine builds_previous fun keyword _ => reading (builds_expect rfl) fun _ _ => ?_
  refine andThen (builds_expect rfl) fun key _ => ?_
  have second : Proceeds C n [] (do
      return (← expect .identifier "a loop variable after `:`").lexeme) fun _ => [] :=
    reading (builds_expect rfl) fun _ _ => builds_pure rfl trivial rfl
  refine andThen (builds_after? rfl (fun _ => rfl) second).lower fun value _ => ?_
  refine andThen (builds_expect rfl) fun _ _ => andThen hr.expression fun target _ => ?_
  refine andThen (builds_expect rfl) fun _ _ => andThen builds_newlines fun _ _ => ?_
  refine andThen hr.statement fun body _ => builds_spanFrom (by simp) fun pos _ => builds_stmt ?_ (by simp) trivial
  simp [StmtKind.pieces]

theorem caseLabel?_builds : Builds C (·.isSome) n [] (caseLabel? r) (fun _ => True)
    (·.toList.flatMap fun label => label.toList.map .expr) := by
  refine taking (builds_take rfl) ?_ (taking (builds_take rfl) ?_ ?_)
  · refine andThen builds_newlines fun _ _ => andThen hr.expression fun e _ => ?_
    exact builds_pure (by simp) trivial rfl
  · exact builds_pure rfl trivial rfl
  · exact builds_pure rfl trivial rfl

theorem switchStatement_builds : Strides C n [] (switchStatement r) fun s => [.stmt s] := by
  refine builds_previous fun keyword _ => reading (condition_builds hr _) fun target _ => ?_
  refine andThen (builds_expect rfl) fun _ _ => andThen builds_newlines fun _ _ => ?_
  refine andThen (A := fun cases : List Case => cases.flatMap (·.pieces)) (P := fun _ => True)
    (builds_iterate (fun cases : List Case => cases.flatMap (·.pieces)) (fun _ => True) (b := false) trivial rfl
      fun cases _ => BuildsIf.branching (caseLabel?_builds hr) fun label _ => ?_) fun cases _ => ?_
  · cases label with
    | none => exact builds_pure (by simp) trivial rfl
    | some condition =>
      refine andThen (builds_expect rfl) fun _ _ => andThen builds_newlines fun _ _ => ?_
      refine andThen (builds_itemsUntil (fun _ => rfl) hr.statement) fun body _ => ?_
      exact builds_pure (by simp) trivial rfl
  · refine andThen (builds_expect rfl) fun _ _ => builds_spanFrom (by simp) fun pos _ =>
      builds_stmt ?_ (by simp) trivial
    simp [StmtKind.pieces]

theorem handler_builds : Strides C n [] (handler r) fun s => [.stmt s] := by
  refine builds_previous fun keyword _ => reading (builds_expect rfl) fun _ _ =>
    andThen (builds_expect rfl) fun name _ => ?_
  refine andThen (builds_after? rfl (fun _ => rfl) (typePath_builds hr false).lower.loosen).lower fun type _ => ?_
  refine andThen (builds_expect rfl) fun _ _ => andThen builds_newlines fun _ _ =>
    andThen (builds_expect rfl) fun _ _ => ?_
  refine andThen (block_builds hr) fun body _ => builds_spanFrom (by simp) fun pos _ => builds_stmt ?_ (by simp) trivial
  simp [StmtKind.pieces]

theorem tryStatement_builds : Strides C n [] (tryStatement r) fun s => [.stmt s] := by
  refine builds_previous fun keyword _ => andThen builds_newlines fun _ _ => reading (builds_expect rfl) fun _ _ => ?_
  refine andThen (block_builds hr) fun body _ => ?_
  refine andThen (A := fun ss : List Stmt => ss.map .stmt) (P := fun _ => True)
    (builds_iterate (fun ss : List Stmt => ss.map .stmt) (fun _ => True) (b := false) trivial rfl fun found _ => ?_)
    fun handlers _ => builds_spanFrom (by simp) fun pos _ => builds_stmt ?_ (by simp) trivial
  · refine taking (builds_takeOnNextLine rfl) ?_ (builds_pure (by simp) trivial rfl)
    exact andThen (handler_builds hr) fun s _ => builds_pure (by simp) trivial rfl
  · simp [StmtKind.pieces]

theorem expressionStatement_builds : Strides C (n + 1) [] (expressionStatement r) fun s => [.stmt s] := by
  refine reading (expression_builds hr) fun e _ => andThen builds_endStatement fun _ _ => ?_
  exact builds_stmt rfl (by simp) trivial

theorem statement_builds : Strides C (n + 1) [] (statement r) fun s => [.stmt s] := by
  refine builds_peek fun token _ => ?_
  have behind {t : TokenKind} {p : Parser Stmt} {m : Stmt → Bool} (found : token.kind = t) (plain : t.isPlain = true)
      (hp : Builds C m n [] p (fun _ => True) fun s => [.stmt s]) :
      BuildsIf C (fun c => True ∧ c.peek = token) (fun _ => true) (n + 1) [] (advance *> p) (fun _ => True)
        fun s => [.stmt s] := by
    rw [seqRight_eq_bind]
    exact builds_token (fun _ h => h.2) (found ▸ plain) (Nat.le_refl _) (hp.loosen.any.besides rfl)
  split <;> rename_i h
  · exact behind h rfl (variableDeclaration_builds hr)
  · exact behind h rfl globalDeclaration_builds
  · exact behind h rfl (ifStatement_builds hr)
  · exact behind h rfl (returnStatement_builds hr)
  · exact behind h rfl (whileStatement_builds hr)
  · exact behind h rfl (doStatement_builds hr)
  · exact behind h rfl (forStatement_builds hr)
  · exact behind h rfl (switchStatement_builds hr)
  · exact behind h rfl (throwStatement_builds hr)
  · exact behind h rfl (tryStatement_builds hr)
  · exact behind h rfl (block_builds hr)
  · exact (expressionStatement_builds hr).any

/-! ## Members -/

section
variable {start : Token} {ks : List Workpiece}

theorem traitUse_builds (place : start.pos ∈ origins ks) (none : codes ks = []) :
    Proceeds C n ks (traitUse r start) fun m => [.member m] := by
  refine andThen (typePath_builds hr false).lower fun path _ => andThen builds_endStatement fun _ _ => ?_
  refine builds_spanFrom (by simp [place]) fun pos _ => builds_formed (fun _ => .member ?_ (by simp) ?_) trivial rfl
  · simp [none, MemberKind.pieces]
  · exact fun f h => MemberKind.noConfusion h

theorem constant_builds (place : start.pos ∈ origins ks) (none : codes ks = []) :
    Proceeds C n ks (constant r start) fun m => [.member m] := by
  refine andThen (builds_expect rfl) fun name _ => andThen (annotation?_builds hr).lower fun type _ => ?_
  refine andThen (builds_consume rfl rfl) fun _ _ => andThen builds_newlines fun _ _ => ?_
  refine andThen hr.expression fun init _ => builds_spanFrom (by simp [place]) fun pos _ => ?_
  refine andThen builds_endStatement fun _ _ => builds_formed (fun _ => .member ?_ (by simp) ?_) trivial rfl
  · simp [none, MemberKind.pieces]
  · exact fun f h => MemberKind.noConfusion h

omit hr in
theorem isPlain_of_modifier? {kind : TokenKind} {m : Modifier} (h : modifier? kind = some m) : kind.isPlain = true := by
  unfold modifier? at h
  split at h <;> first | rfl | cases h

omit hr in
theorem writtenModifiers_builds : Proceeds C n [] writtenModifiers fun _ => [] := by
  refine builds_iterate (fun _ => []) (fun _ => True) trivial rfl fun found _ => ?_
  refine builds_peek fun token known => ?_
  cases h : modifier? token.kind with
  | none => exact builds_pure rfl trivial rfl
  | some m =>
    refine builds_ite (fun _ => builds_failAt known rfl) fun _ => ?_
    refine builds_token (fun _ h => h.2) (isPlain_of_modifier? h) (Nat.le_succ n) ?_
    exact builds_pure rfl trivial rfl

theorem accessor_builds (type : Option TypePath) (getter setter : Option Func) :
    Strides C n [.accessors getter setter] (accessor r type getter setter) fun found =>
      [.accessors found.1 found.2] := by
  refine reading (builds_expect rfl) fun mode known => ?_
  have body {γ : Type} {ks : List Workpiece} {f : Stmt → Parser γ} {P : γ → Prop} {A : γ → List Workpiece}
      (hf : ∀ open_ body, Builds C (fun _ => false) n (ks ++ [.token open_] ++ [.stmt body]) (f body) P A) :
      Builds C (fun _ => false) n ks ((do
        let _ ← expect .leftBrace "`\x7b` before accessor body"
        functionBody r) >>= f) P A := by
    rw [bind_assoc]
    exact andThen (builds_expect rfl) fun open_ _ => andThen (functionBody_builds hr) fun body _ => hf open_ body
  refine builds_ite (fun _ => ?_) fun _ => builds_ite (fun _ => ?_) fun _ => builds_failAt known.1 rfl
  · refine builds_ite (fun _ => builds_failAt_bind known.1 rfl) fun fresh => ?_
    obtain rfl : getter = none := by simpa using fresh
    refine body fun open_ body => builds_spanFrom (by simp) fun pos _ => ?_
    change Proceeds C n ([.accessors none setter] ++ [.token mode, .token open_, .stmt body, .place pos]) _ _
    refine BuildsIf.forming (x := .func ⟨mode.lexeme, [], some body, type, [], pos⟩) ?_ fun _ => .func rfl (by simp)
    exact builds_formed (x := fun found : Option Func × Option Func => .accessors found.1 found.2)
      (fun _ => .getter rfl) trivial rfl
  · refine builds_ite (fun _ => builds_failAt_bind known.1 rfl) fun fresh => BuildsIf.copying ?_ rfl
    obtain rfl : setter = none := by simpa using fresh
    refine BuildsIf.forming (x := .param (setterParam type mode.pos)) ?_ fun _ => .param rfl (by simp [setterParam])
    refine body fun open_ body => builds_spanFrom (by simp) fun pos _ => ?_
    change Proceeds C n ([.accessors getter none] ++
      [.token mode, .param (setterParam type mode.pos), .token open_, .stmt body, .place pos]) _ _
    refine BuildsIf.forming (x := .func ⟨mode.lexeme, [setterParam type mode.pos], some body, none, [], pos⟩) ?_
      fun _ => .func rfl (by simp)
    exact builds_formed (x := fun found : Option Func × Option Func => .accessors found.1 found.2)
      (fun _ => .setter rfl) trivial rfl

theorem property_builds (type : Option TypePath) : Builds C (fun _ => false) n [] (property r type)
    (fun kind => ∃ getter setter, kind = .property type getter setter) (·.pieces) := by
  refine andThen builds_newlines fun _ _ => ?_
  refine BuildsIf.forming (x := .accessors none none) ?_ fun _ => .noAccessors rfl
  refine BuildsIf.bind (A := fun found => [.accessors found.1 found.2]) (P := fun _ => True)
    (builds_iterate (fun found : Option Func × Option Func => [.accessors found.1 found.2]) (fun _ => True)
      (b := false) trivial rfl fun found _ => ?_) fun found _ => ?_
  · refine builds_atKind fun close => builds_atEnd fun ended => ?_
    refine builds_ite (fun _ => builds_pure rfl trivial rfl) fun _ => ?_
    refine BuildsIf.readingOn (accessor_builds hr type _ _).any fun next _ => andThen builds_newlines fun _ _ => ?_
    exact builds_pure rfl trivial rfl
  · refine andThen (builds_expect rfl) fun _ _ => andThen builds_endStatement fun _ _ => ?_
    exact builds_pure rfl ⟨_, _, rfl⟩ rfl

omit hr in
theorem builds_promotions {params : List Param} {body : Stmt} {js : List Workpiece} {f : List Stmt → Parser β}
    (hf : ∀ stmts, Builds C (fun _ => false) n (ks ++ [.stmt (prepend stmts body)] ++ js) (f stmts) P A) :
    Builds C (fun _ => false) n (ks ++ [.stmt body] ++ js) (promotions params >>= f) P A := by
  let stored (c : Cursor) := Synthesis.promotions c.nextId ((params.filter (·.promoted)).map (·.name))
  refine builds_ids (f := fun c => f (stored c)) (fun _ _ => rfl) (fun s c => ?_) fun c => hf (stored c)
  simp only [List.append_assoc, List.singleton_append]
  rw [← List.append_assoc, ← List.append_assoc]
  exact .single .prepend

theorem method_builds (name : String) (isAbstract : Bool) (attributes : List Expr) (place : start.pos ∈ origins ks) :
    Builds C (fun _ => false) n ks (method r start name isAbstract attributes)
      (fun f => f.attributes = attributes ∧ (isAbstract = true → f.body = none)) fun f =>
        ks ++ f.params.map .param ++ (if f.body.isNone && !isAbstract then [.exempt] else f.body.toList.map .stmt) ++
          [.place f.pos] := by
  refine andThen (params_builds hr _) fun params _ => andThen (annotation?_builds hr).lower fun result _ => ?_
  refine builds_get (fun _ _ => rfl) fun c _ => builds_atKind fun open_ => ?_
  refine builds_ite (fun h => ?_) fun h => ?_
  · cases isAbstract with
    | true =>
      refine andThen builds_endStatement fun _ _ => builds_pure_bind (builds_spanFrom (by simp [place]) fun pos _ => ?_)
      exact builds_done (by simp) ⟨rfl, fun _ => rfl⟩ rfl
    | false =>
      have free : c.inInterface = true := (Bool.and_eq_true _ _ ▸ h).1
      have finish : Builds C (fun _ => false) n (ks ++ params.map .param ++ [] ++ [.exempt]) (do
          endStatement
          let pos ← spanFrom start
          return (⟨name, params, none, result, attributes, pos⟩ : Func))
          (fun f => f.attributes = attributes ∧ (false = true → f.body = none)) fun f => ks ++ f.params.map .param ++
            (if f.body.isNone && !false then [.exempt] else f.body.toList.map .stmt) ++ [.place f.pos] := by
        refine andThen builds_endStatement fun _ _ => builds_spanFrom (by simp [place]) fun pos _ => ?_
        exact builds_done (by simp) ⟨rfl, fun _ => rfl⟩ rfl
      exact BuildsIf.laying finish.any fun _ _ hd => .exempt (hd.1.2 ▸ free)
  · refine andThen (builds_expect rfl) fun _ _ => BuildsIf.besides ?_ rfl
    refine andThen (functionBody_builds hr) fun body _ =>
      builds_pure_bind (builds_spanFrom (by simp [place]) fun pos _ => ?_)
    obtain rfl : isAbstract = false := by simp at h; exact h.1
    refine builds_ite (fun _ => ?_) fun _ => builds_done (by simp) ⟨rfl, by simp⟩ rfl
    exact builds_promotions fun stmts => builds_done (by simp) ⟨rfl, by simp⟩ rfl

theorem valueMember_builds :
    BuildsIf C (fun c => c.peek = start) (fun _ => true) n [] (valueMember r start) (fun _ => True)
    fun m => [.member m] := by
  refine BuildsIf.ahead (fun _ h => h) fun left => ?_
  refine andThen (attributes_builds hr).lower.any fun attributes _ =>
    andThen writtenModifiers_builds fun modifiers _ => ?_
  change Strides C n ([] ++ .ahead start left :: (attributes.map .expr ++ [])) _ _
  refine builds_expectBehind rfl fun name => andThen (annotation?_builds hr).lower fun type _ => ?_
  refine builds_peek fun token known => ?_
  have finish {ks : List Workpiece} {kind : MemberKind} (parts : codes ks = attributes.map .expr ++ kind.pieces)
      (place : start.pos ∈ origins ks)
      (formed : ∀ pos,
        Member.Formed (ks ++ [.place pos]) ⟨name.lexeme, kind, withVisibility modifiers, attributes, pos⟩) :
      Proceeds C n ks (do
        let pos ← spanFrom start
        return (⟨name.lexeme, kind, withVisibility modifiers, attributes, pos⟩ : Member)) fun m => [.member m] :=
    builds_spanFrom (by simp [place]) fun pos _ =>
      builds_formed (fun _ => .member (by simp [parts]) (by simp) (formed pos)) trivial rfl
  have at_ (c : Cursor) (hc : True ∧ c.peek = token) : c.peek = token := hc.2
  split <;> rename_i h
  · rw [seqRight_eq_bind, bind_assoc]
    refine builds_token at_ (by rw [h]; rfl) (Nat.le_succ n) (BuildsIf.besides ?_ rfl)
    refine andThen (property_builds hr type).any fun kind hk => ?_
    obtain ⟨getter, setter, rfl⟩ := hk
    exact finish (by simp [MemberKind.pieces]) (by simp) fun _ _ h => MemberKind.noConfusion h
  · refine builds_token at_ (by rw [h]; rfl) (Nat.le_succ n) (BuildsIf.besides ?_ rfl)
    refine builds_ite (fun _ => builds_failAt_bind known rfl) fun _ => andThen builds_newlines fun _ _ => ?_
    refine andThen hr.expression fun init _ => andThen builds_endStatement fun _ _ => builds_pure_bind ?_
    exact finish (by simp [MemberKind.pieces]) (by simp) fun _ _ h => MemberKind.noConfusion h
  · refine builds_token at_ (by rw [h]; rfl) (Nat.le_succ n) (BuildsIf.besides ?_ rfl)
    refine BuildsIf.bind (method_builds hr _ _ _ (by simp)).any fun f hf => builds_pure_bind (finish ?_ ?_ ?_)
    · cases body : f.body <;> cases (withVisibility modifiers).contains .isAbstract <;>
        simp [body, MemberKind.pieces, Func.inner]
    · simp
    · rintro pos g ⟨⟩
      refine ⟨hf.1, by simp, hf.2, fun none => ?_⟩
      cases isAbstract : (withVisibility modifiers).contains .isAbstract with
      | true => exact .inl isAbstract
      | false => simp [none]
  · refine andThen builds_endStatement fun _ _ => builds_pure_bind ?_
    exact finish (by simp [MemberKind.pieces]) (by simp) fun _ _ h => MemberKind.noConfusion h

end

theorem member_builds : Strides C n [] (member r) fun m => [.member m] := by
  refine builds_peek fun start _ => ?_
  refine builds_takeAt (fun _ h => h.2) rfl (traitUse_builds hr (by simp) rfl) ?_
  refine builds_takeAt (fun _ h => h.2) rfl (constant_builds hr (by simp) rfl) ?_
  exact BuildsIf.when (valueMember_builds hr) fun _ h => h.2

theorem classBody_builds : Strides C n [] (classBody r) fun ms => ms.map .member := by
  refine andThen builds_newlines fun _ _ => ?_
  refine andThen (builds_itemsUntil (fun _ => rfl) (member_builds hr)) fun members _ => ?_
  refine reading (builds_expect rfl) fun _ _ =>
    BuildsIf.besides (BuildsIf.after (builds_done rfl trivial rfl) fun s c _ => ?_) rfl
  simpa using Steps.single (.promote (s := s))

theorem heritage_builds : Proceeds C n [] (heritage r) fun _ => [] := by
  refine builds_iterate (fun _ => []) (fun _ => True) trivial rfl fun found _ => ?_
  refine andThen builds_newlines fun _ _ => taking (builds_take rfl) ?_ (taking (builds_take rfl) ?_ ?_)
  · simp only [↓reduceIte]
    refine builds_ite (fun _ => ?_) fun _ => ?_
    · exact builds_previous fun _ known => builds_failAt_bind known rfl
    exact andThen (typePath_builds hr false).lower fun _ _ => builds_pure rfl trivial rfl
  · refine andThen (builds_separated (fun _ => rfl) (typePath_builds hr false).lower) fun _ _ => ?_
    exact builds_pure (by simp) trivial rfl
  · exact builds_pure rfl trivial rfl

/-! ## Classes -/

section
variable {keyword : Token} {ks : List Workpiece} (attributes : List Expr) (members : List Member)

omit hr in
theorem finishClass_builds {cls : Position → Class} (parts : codes ks = attributes.map .expr ++ members.map .member)
    (read : .token keyword ∈ ks) (same : ∀ pos, (cls pos).attributes = attributes ∧ (cls pos).members = members ∧
      (cls pos).kind ≠ .interface ∧ (cls pos).pos = pos) : Proceeds C n ks (finishClass keyword cls)
      fun s => [.stmt s] := by
  have place : keyword.pos ∈ origins ks := List.mem_filterMap.mpr ⟨_, read, rfl⟩
  refine builds_spanFrom place fun pos start => builds_stmt ?_ (by simp) ⟨(same pos).2.2.1, (same pos).2.2.2, ?_⟩
  · simp [parts, StmtKind.pieces, (same pos).1, (same pos).2.1]
  · exact ⟨keyword, by simp [read], start.symm⟩

theorem classDeclaration_builds : BuildsIf C (fun c => c.previous = keyword) (fun _ => false) n
    (attributes.map .expr ++ [.token keyword]) (classDeclaration r attributes) (fun _ => True) fun s => [.stmt s] := by
  refine builds_keyword (fun _ h => h) (andThen (builds_expect rfl) fun name _ => ?_)
  refine andThen (heritage_builds hr) fun heritage _ => andThen (builds_expect rfl) fun _ _ => ?_
  refine andThen (classBody_builds hr) fun members _ => finishClass_builds attributes members ?_ ?_ ?_
  · simp
  · simp
  · exact fun _ => ⟨rfl, rfl, ClassKind.noConfusion, rfl⟩

theorem traitDeclaration_builds : BuildsIf C (fun c => c.previous = keyword) (fun _ => false) n
    (attributes.map .expr ++ [.token keyword]) (traitDeclaration r attributes) (fun _ => True) fun s => [.stmt s] := by
  refine builds_keyword (fun _ h => h) (andThen (builds_expect rfl) fun name _ => andThen builds_newlines fun _ _ => ?_)
  refine andThen (builds_expect rfl) fun _ _ => andThen (classBody_builds hr) fun members _ => ?_
  refine finishClass_builds attributes members ?_ ?_ ?_
  · simp
  · simp
  · exact fun _ => ⟨rfl, rfl, ClassKind.noConfusion, rfl⟩

omit hr in
theorem builds_enterInterface {f : Unit → Parser β} {M : β → Bool}
    (hf : Builds C M n (ks ++ [.interfaceBody]) (f ()) P A) : Builds C M n ks (setInInterface true >>= f) P A := by
  refine builds_change (f := fun _ => f ()) (fun _ => rfl) (fun _ _ => ⟨rfl, rfl⟩) (fun _ => ⟨rfl, rfl, rfl⟩)
    (fun s c => ?_)
    fun _ => hf
  rw [← List.append_assoc]
  exact .single .enterInterface

omit hr in
theorem builds_leaveInterface {cls : Position → Class} (parts : codes ks = attributes.map .expr)
    (read : .token keyword ∈ ks) (same : ∀ pos, (cls pos).attributes = attributes ∧
      (cls pos).members = members.map asAbstract ∧ (cls pos).kind = .interface ∧ (cls pos).pos = pos) :
    Proceeds C n (ks ++ [.interfaceBody] ++ members.map .member) (do
      setInInterface false
      finishClass keyword cls) fun s => [.stmt s] := by
  refine ⟨fun s c ready _ => ?_, fun _ c _ fits _ => ((spans_modify (g := fun c => { c with inInterface := false })
    (fun _ => ⟨rfl, rfl⟩) fun _ => rfl).next fun _ => (spans_spanFrom keyword).next fun _ => grows_pure) c fits⟩
  let pos := keyword.pos.merge c.previous.pos
  have place : keyword.pos ∈ origins ks := List.mem_filterMap.mpr ⟨_, read, rfl⟩
  have run : (setInInterface false >>= fun _ => finishClass keyword cls) c =
      .ok (⟨pos, .cls (cls pos)⟩, { c with inInterface := false }) := rfl
  rw [runs_of_eq run]
  refine ⟨⟨(Cursor.From.refl ready).congr rfl rfl rfl, fun h => absurd h Bool.false_ne_true, ?_⟩, trivial⟩
  have span : Step (s ++ ks ++ .interfaceBody :: members.map .member) c
      (s ++ ks ++ .interfaceBody :: members.map .member ++ [.place pos]) c := .span (by simp [place])
  have leave : Step (s ++ ks ++ .interfaceBody :: (members.map .member ++ [.place pos])) c
      (s ++ [.stmt ⟨(cls pos).pos, .cls (cls pos)⟩]) { c with inInterface := false } :=
    .leaveInterface (same pos).2.2.1 (by rw [parts, (same pos).1]) (by simp) (same pos).2.1 (by simp [(same pos).2.2.2])
      read (by rw [(same pos).2.2.2]; rfl)
  rw [(same pos).2.2.2] at leave
  simpa using (Steps.single span).tail (by simpa using leave)

theorem interfaceDeclaration_builds : BuildsIf C (fun c => c.previous = keyword) (fun _ => false) n
    (attributes.map .expr ++ [.token keyword]) (interfaceDeclaration r attributes) (fun _ => True)
      fun s => [.stmt s] := by
  refine builds_keyword (fun _ h => h) (andThen (builds_expect rfl) fun name _ => andThen builds_newlines fun _ _ => ?_)
  have listed : Proceeds C n [] (do
      let interfaces ← separated (typePath r false)
      newlines
      return interfaces) fun _ => [] :=
    andThen (builds_separated (fun _ => rfl) (typePath_builds hr false).lower) fun _ _ =>
      andThen builds_newlines fun _ _ => builds_pure (by simp) trivial rfl
  refine andThen (builds_after? rfl (fun _ => rfl) listed).lower fun interfaces _ => builds_atKind fun implements => ?_
  refine builds_ite (fun _ => builds_fail_bind rfl) fun _ => andThen (builds_expect rfl) fun open_ _ => ?_
  refine builds_enterInterface (andThen (classBody_builds hr) fun members _ => ?_)
  refine builds_leaveInterface attributes members ?_ ?_ ?_
  · simp
  · simp
  · exact fun _ => ⟨rfl, rfl, rfl, rfl⟩

end

/-! ## Enums -/

omit hr in
theorem enumCases_builds {case : Nat → Parser Member} (hc : ∀ i, Strides C n [] (case i) fun m => [.member m]) :
    Strides C n [] (enumCases case) fun ms => ms.map .member := by
  refine andThen builds_newlines fun _ _ => andThen (A := fun ms : List Member => ms.map .member) (P := fun _ => True)
    (builds_iterate (fun ms : List Member => ms.map .member) (fun _ => True) (b := false) trivial rfl
      fun found _ => ?_) fun members _ => reading (builds_expect rfl) fun _ _ => builds_pure (by simp) trivial rfl
  refine builds_atKind fun close => builds_atEnd fun ended => ?_
  refine builds_ite (fun _ => builds_pure (by simp) trivial rfl) fun _ => reading (hc _).any fun m _ => ?_
  exact builds_pure (by simp) trivial rfl

theorem valueCase_builds (overString : Bool) (index : Nat) :
    Strides C n [] (valueCase r overString index) fun m => [.member m] := by
  refine reading (builds_expect rfl) fun name _ => ?_
  have finish (value : Expr) : Proceeds C n ([] ++ [.token name] ++ [.expr value]) (do
      endStatement
      let pos ← spanFrom name
      return (⟨name.lexeme, .field none (some value), [.isConst], [], pos⟩ : Member)) fun m => [.member m] := by
    refine andThen builds_endStatement fun _ _ => builds_spanFrom (by simp) fun pos _ => ?_
    refine builds_formed (fun _ => .member rfl (by simp) ?_) trivial rfl
    exact fun _ h => MemberKind.noConfusion h
  refine taking (builds_take rfl) ?_ (BuildsIf.copying ?_ rfl)
  · exact andThen builds_newlines fun _ _ => andThen hr.expression fun value _ => finish value
  · have literal (l : Literal) : Proceeds C n [.place name.pos] (node (.literal l) name.pos) fun e => [.expr e] :=
      builds_node rfl trivial (by simp) Bool.noConfusion fun _ _ _ => trivial
    exact BuildsIf.bind ((literal _).frame [.token name]) fun value _ => finish value

theorem factoryCase_builds (enumName : String) (index : Nat) :
    Strides C n [] (factoryCase r enumName index) fun m => [.member m] := by
  refine reading (builds_expect rfl) fun name _ => ?_
  refine andThen (builds_after? rfl (by simp) (params_builds hr false).loosen).lower fun params _ => ?_
  have parts : List.flatMap (fun ps => ps.map Workpiece.param) params.toList = (params.getD []).map .param := by
    cases params <;> simp
  rw [parts]
  let names := (params.getD []).map (·.name)
  let body (id : Nat) := Synthesis.factory id enumName name.lexeme index names
  refine builds_ids (G := fun c => [] ++ [.token name] ++ (params.getD []).map .param ++ [.synthetic (body c.nextId)])
    (fun _ _ => rfl) (fun s d => ?_) fun d => ?_
  · have step : Step (s ++ ([] ++ [.token name] ++ (params.getD []).map .param) ++ []) d
        (s ++ ([] ++ [.token name] ++ (params.getD []).map .param) ++ [.synthetic (body d.nextId)])
        { d with nextId := d.nextId + Synthesis.factoryIds names } := .form (.factory rfl)
    simpa using Steps.single step
  · refine andThen builds_endStatement fun _ _ => builds_spanFrom (by simp) fun pos _ => ?_
    exact builds_formed (fun _ => .case (by simp [body, names]) rfl rfl ⟨rfl, rfl⟩ rfl (by simp) (by simp)) trivial rfl

theorem enumDeclaration_builds {keyword : Token} {attributes : List Expr} :
    BuildsIf C (fun c => c.previous = keyword) (fun _ => false) n (attributes.map .expr ++ [.token keyword])
      (enumDeclaration r attributes) (fun _ => True) fun s => [.stmt s] := by
  refine builds_keyword (fun _ h => h) (andThen (builds_expect rfl) fun name _ => ?_)
  have wrapped : Proceeds C n [] (do
      let wrapped ← expect .typeIdentifier "a wrapped type name"
      if wrapped.lexeme == "String" || wrapped.lexeme == "Int" then return wrapped.lexeme
      else failAt wrapped .wrappedType) fun _ => [] :=
    reading (builds_expect rfl) fun _ known =>
      builds_ite (fun _ => builds_pure rfl trivial rfl) fun _ => builds_failAt known.1 rfl
  refine andThen (builds_after? rfl (fun _ => rfl) wrapped).lower fun wrapped _ => andThen builds_newlines fun _ _ => ?_
  refine andThen (builds_expect rfl) fun _ _ => ?_
  have finish (parent : Option TypePath) (members : List Member) {ks : List Workpiece}
      (parts : codes ks = attributes.map .expr ++ members.map .member) (read : .token keyword ∈ ks) :
      Proceeds C n ks (finishClass keyword fun pos => ⟨name.lexeme, .plain, parent, [], members, attributes, pos⟩)
        fun s => [.stmt s] :=
    finishClass_builds _ _ parts read fun _ => ⟨rfl, rfl, ClassKind.noConfusion, rfl⟩
  cases wrapped with
  | some wrapped => exact andThen (enumCases_builds (valueCase_builds hr _)) fun ms _ => finish _ ms (by simp) (by simp)
  | none => exact andThen (enumCases_builds (factoryCase_builds hr _)) fun ms _ => finish _ ms (by simp) (by simp)

/-! ## Declarations -/

omit hr in
theorem useTarget_builds : Passes C (n + 1) useTarget := by
  refine builds_advance_or_fail (fun token known plain => ?_) fun token plain => ?_
  · split
    · exact builds_pure rfl trivial rfl
    · exact builds_pure rfl trivial rfl
    · exact builds_failAt known rfl
  · split <;> rename_i h
    · simp [h, TokenKind.isPlain] at plain
    · simp [h, TokenKind.isPlain] at plain
    · exact ⟨_, rfl, rfl⟩

omit hr in
theorem usePath_builds : Passes C n usePath := by
  refine builds_iterate (fun _ => []) (fun _ => True) trivial rfl fun segments _ => ?_
  refine builds_peek fun token known => ?_
  have at_ (c : Cursor) (hc : True ∧ c.peek = token) : c.peek = token := hc.2
  split <;> rename_i h
  · refine builds_token at_ (by rw [h]; rfl) (Nat.le_succ n) ?_
    refine andThen (builds_take rfl).any fun more _ => builds_ite (fun _ => ?_) fun _ => ?_
    · exact builds_pure rfl trivial rfl
    · exact builds_pure rfl trivial rfl
  · exact builds_token at_ (by rw [h]; rfl) (Nat.le_succ n) (builds_pure rfl trivial rfl)
  · refine builds_ite (fun _ => builds_failAt known rfl) fun _ => ?_
    refine builds_token at_ (by rw [h]; rfl) (Nat.le_succ n) ?_
    refine andThen (builds_separated (fun _ => rfl) useTarget_builds.lower).any fun targets _ => ?_
    refine andThen builds_newlines fun _ _ => andThen (builds_expect rfl) fun _ _ => builds_pure (by simp) trivial rfl
  · exact builds_failAt known rfl

omit hr in
theorem useAlias_builds (segments : List String) (kind : UseKind) : Passes C n (useAlias segments kind) := by
  refine reading useTarget_builds.lower fun target _ => ?_
  split
  · exact builds_pure rfl trivial rfl
  · exact builds_previous fun _ known => builds_failAt known rfl
  · exact builds_pure rfl trivial rfl

omit hr in
theorem useDeclaration_builds {token : Token} {attributes : List Expr} (known : C.Knows token)
    (kind : token.kind.isPlain = true) : BuildsIf C (fun c => c.peek = token) (fun _ => true) n (attributes.map .expr)
      (useDeclaration attributes) (fun _ => True) fun s => [.stmt s] := by
  refine builds_tokenWithin (fun _ h => h) kind (Nat.le_succ n) fun b => builds_get (fun _ _ => rfl) fun c hc => ?_
  refine builds_ite (fun _ => builds_failAt_bind known rfl) fun inside => ?_
  obtain rfl : b = true := by simpa [hc] using inside
  refine BuildsIf.any (andThen (builds_take rfl) fun absolute _ => andThen usePath_builds fun path _ => ?_)
  have finish {ks : List Workpiece} (path : TypePath) (kind : UseKind) (parts : codes ks = attributes.map .expr)
      (place : token.pos ∈ origins ks) (inside : .within true ∈ ks) : Proceeds C n ks (do
        endStatement
        let pos ← spanFrom token
        return (⟨pos, .use path kind attributes⟩ : Stmt)) fun s => [.stmt s] := by
    refine andThen builds_endStatement fun _ _ => builds_spanFrom (by simp [place]) fun pos _ => ?_
    exact builds_stmt (by simp [parts, StmtKind.pieces]) (by simp) (by simp [StmtKind.Formed, inside])
  refine andThen (builds_take rfl) fun renamed _ => builds_ite (fun _ => ?_) fun _ => builds_pure_bind ?_
  · refine andThen (useAlias_builds _ _) fun path _ => ?_
    dsimp only
    split
    · exact builds_failAt known rfl
    · exact finish _ _ (by simp) (by simp) (by simp)
  · dsimp only
    split
    · exact builds_failAt known rfl
    · exact finish _ _ (by simp) (by simp) (by simp)

theorem functionDeclaration_builds (attributes : List Expr) :
    Strides C n (attributes.map .expr) (functionDeclaration r attributes) fun s => [.stmt s] :=
  BuildsIf.readingOn (function_builds hr false attributes) fun _ _ => builds_stmt rfl (by simp) trivial

section
omit hr
variable {ks ds : List Workpiece} {decls : List Stmt} {keyword : Token} {path : TypePath}

theorem builds_enterNamespace {f : Unit → Parser β} {M : β → Bool}
    (apart : .within false ∈ ks) (none : codes ks = [])
    (hf : Builds C M n (ks ++ [.namespaceBody]) (f ()) P A) : Builds C M n ks (setInNamespace true >>= f) P A := by
  refine builds_change (f := fun _ => f ()) (fun _ => rfl) (fun _ _ => ⟨rfl, rfl⟩) (fun _ => ⟨rfl, rfl, rfl⟩)
    (fun s c => ?_)
    fun _ => hf
  rw [← List.append_assoc]
  exact .single (.enterNamespace apart none)

/-- A namespace takes the place of what was read since its keyword. -/
theorem leaveNamespace_steps {s : List Workpiece} {c c' : Cursor} (place : keyword.pos ∈ origins ks)
    (apart : .within false ∈ ks) (none : codes ks = []) (parts : codes ds = decls.map .stmt)
    (mark : c' = { c with inNamespace := false } ∨ c.rest = [] ∧ c' = c) :
    Steps (s ++ (ks ++ [.namespaceBody] ++ ds)) c
      (s ++ [.stmt ⟨keyword.pos.merge c.previous.pos, .inNamespace path decls⟩]) c' := by
  have span : Step (s ++ ks ++ .namespaceBody :: ds) c
      (s ++ ks ++ .namespaceBody :: ds ++ [.place (keyword.pos.merge c.previous.pos)]) c := .span (by simp [place])
  have leave : Step (s ++ ks ++ .namespaceBody :: (ds ++ [.place (keyword.pos.merge c.previous.pos)])) c
      (s ++ [.stmt ⟨keyword.pos.merge c.previous.pos, .inNamespace path decls⟩]) c' :=
    .leaveNamespace apart none (by simp [parts]) (by simp) mark
  simpa using (Steps.single span).tail (by simpa using leave)

theorem builds_leaveNamespace (place : keyword.pos ∈ origins ks) (apart : .within false ∈ ks) (none : codes ks = [])
    (parts : codes ds = decls.map .stmt) : Proceeds C n (ks ++ [.namespaceBody] ++ ds) (do
      setInNamespace false
      let decls ← pure decls
      return ⟨← spanFrom keyword, .inNamespace path decls⟩) fun s => [.stmt s] := by
  refine ⟨fun s c ready _ => ?_, fun _ c _ fits _ => ((spans_modify (g := fun c => { c with inNamespace := false })
    (fun _ => ⟨rfl, rfl⟩) fun _ => rfl).next fun _ => spans_pure.next fun _ =>
    (spans_spanFrom keyword).next fun _ => grows_pure) c fits⟩
  have run : (do
      setInNamespace false
      let decls ← pure decls
      return (⟨← spanFrom keyword, .inNamespace path decls⟩ : Stmt)) c =
        .ok (⟨keyword.pos.merge c.previous.pos, .inNamespace path decls⟩, { c with inNamespace := false }) := rfl
  rw [runs_of_eq run]
  exact ⟨⟨(Cursor.From.refl ready).congr rfl rfl rfl, fun h => absurd h Bool.false_ne_true,
    leaveNamespace_steps place apart none parts (.inl rfl)⟩, trivial⟩

/-- A row of items that nothing stops goes to the end. -/
theorem wp_itemsUntil_end {α : Type} {p : Parser α} {c : Cursor} :
    wp (itemsUntil (fun _ => false) p) (fun _ d => d.peek.kind = .eof) c := by
  refine wp_iterate (I := fun _ _ => True) trivial fun items c _ => ?_
  rw [wp_bind, wp_peek, wp_ite]
  refine ⟨fun h => ?_, fun _ => ?_⟩
  · rw [wp_pure]
    exact beq_iff_eq.mp h
  · rw [wp_bind]
    exact fun _ _ _ => by simp

end

theorem builds_restOfFile {ks : List Workpiece} {keyword : Token} {path : TypePath} (place : keyword.pos ∈ origins ks)
    (apart : .within false ∈ ks) (none : codes ks = []) : Proceeds C n (ks ++ [.namespaceBody]) (do
      let decls ← itemsUntil (fun _ => false) r.declaration
      return ⟨← spanFrom keyword, .inNamespace path decls⟩) fun s => [.stmt s] := by
  have items : Proceeds C n [] (itemsUntil (fun _ => false) r.declaration) (·.flatMap fun s => [.stmt s]) :=
    builds_itemsUntil (fun _ => rfl) hr.declaration
  refine ⟨fun s c ready _ => ?_, fun Z c ready fits _ => (items.grows Z c ready fits trivial).next fits
    fun _ d _ fits' =>
    ((spans_spanFrom keyword).next fun _ => grows_pure) d fits'⟩
  rw [runs_bind]
  refine runs_mono (runs_and ((items.frame (ks ++ [.namespaceBody])).lays s c ready trivial) wp_itemsUntil_end)
    fun decls d hd => ?_
  obtain ⟨⟨laid, _⟩, ended⟩ := hd
  have empty : d.rest = [] := by
    cases rest : d.rest with
    | nil => rfl
    | cons t ts => exact absurd (by simpa [Cursor.peek, rest] using ended) (laid.way.ready.inner t (by simp [rest])).1
  rw [runs_bind, runs_spanFrom, runs_pure]
  have steps := laid.steps
  rw [List.append_nil] at steps
  refine ⟨⟨laid.way, fun h => absurd h Bool.false_ne_true, steps.trans ?_⟩, trivial⟩
  exact leaveNamespace_steps place apart none (by simp) (.inr ⟨empty, rfl⟩)

theorem namespaceDeclaration_builds {token : Token} (known : C.Knows token) (kind : token.kind.isPlain = true) :
    BuildsIf C (fun c => c.peek = token) (fun _ => true) (n + 1) [] (namespaceDeclaration r) (fun _ => True)
      fun s => [.stmt s] := by
  refine builds_tokenWithin (fun _ h => h) kind (Nat.le_refl _) fun b => builds_get (fun _ _ => rfl) fun c hc => ?_
  refine builds_ite (fun _ => builds_failAt_bind known rfl) fun outside => ?_
  obtain rfl : b = false := by simpa [hc] using outside
  refine BuildsIf.any (andThen (typePath_builds hr false).lower fun path _ => ?_)
  refine builds_enterNamespace (by simp) rfl (taking (builds_take rfl) ?_ ?_)
  · refine andThen builds_newlines fun _ _ => andThen (builds_itemsUntil (fun _ => rfl) hr.declaration)
      fun decls _ => ?_
    refine andThen (builds_expect rfl) fun close _ => ?_
    change Proceeds C n ([.token token, .within false] ++ [.namespaceBody] ++
      (decls.flatMap (fun s => [.stmt s]) ++ [.token close])) _ _
    exact builds_leaveNamespace (by simp) (by simp) rfl (by simp)
  · refine andThen builds_endStatement fun _ _ => ?_
    change Proceeds C n ([.token token, .within false] ++ [.namespaceBody]) _ _
    exact builds_restOfFile hr (by simp) (by simp) rfl

theorem declaration_builds : Strides C (n + 1) [] (declaration r) fun s => [.stmt s] := by
  refine andThen (attributes_builds hr) fun attributes _ => ?_
  refine builds_peek fun token known =>
    builds_peekNext [.identifier] rfl (fun t u h => by simp only [h .identifier (by simp)])
    fun next => ?_
  have behind {t : TokenKind} {p : Parser Stmt} {m : Stmt → Bool} (found : token.kind = t) (plain : t.isPlain = true)
      (hp : BuildsIf C (fun c => c.previous = token) m n (attributes.map .expr ++ [.token token]) p (fun _ => True)
        fun s => [.stmt s]) :
      BuildsIf C (fun c => (True ∧ c.peek = token) ∧ c.peekNext = next) (fun _ => true) (n + 1) (attributes.map .expr)
        (advance *> p) (fun _ => True) fun s => [.stmt s] := by
    rw [seqRight_eq_bind]
    exact builds_token (fun _ h => h.1.2) (found ▸ plain) (Nat.le_refl _) hp.loosen
  split <;> rename_i h
  · exact BuildsIf.when (useDeclaration_builds known (by rw [h]; rfl)) fun _ h => h.1.2
  · exact behind h rfl (classDeclaration_builds hr _)
  · exact behind h rfl (interfaceDeclaration_builds hr _)
  · exact behind h rfl (traitDeclaration_builds hr _)
  · exact behind h rfl (enumDeclaration_builds hr)
  · refine builds_ite (fun function => ?_) fun _ => builds_ite (fun _ => builds_failAt known rfl) fun bare => ?_
    · rw [Bool.and_eq_true] at function
      exact behind (beq_iff_eq.mp function.1) rfl (BuildsIf.besides (functionDeclaration_builds hr attributes).any rfl)
    · obtain rfl : attributes = [] := by simpa using bare
      refine builds_ite (fun found => ?_) fun _ => (statement_builds hr).any
      exact BuildsIf.when (namespaceDeclaration_builds hr known (TokenKind.isPlain_of_beq found rfl)) fun _ h => h.1.2

theorem program_builds : Proceeds C n [] (program r) fun ss => ss.map .stmt := by
  refine andThen builds_newlines fun _ _ => ?_
  exact (builds_itemsUntil (fun _ => rfl) hr.declaration).cast (by simp)

end PhaseLang.Grammar

namespace PhaseLang

namespace Rules

open PhaseLang.Parser

variable {C : Course} {n : Nat} {r : Rules}

theorem exhausted_build : exhausted.Build C 0 := by
  have stalls {α : Type} {M : α → Bool} {P : α → Prop} {A : α → List Workpiece} :
      Builds C M 0 [] (fail .stalled) P A :=
    ⟨fun _ c ready _ => ⟨⟨c.peek, Cursor.knows_peek ready, rfl⟩, fun _ => Nat.zero_le _⟩,
      fun _ c _ fits _ => tight_fail.grows c fits⟩
  exact ⟨fun _ => stalls, stalls, stalls, stalls, stalls, fun _ _ h => absurd h (Nat.not_lt_zero _),
    fun _ => tight_fail.grows⟩

theorem Build.next (h : r.Build C n) (embeds : ∀ c, C.Ready c → c.rest.length < n + 1 →
    wp r.next.expression (fun _ c' => C.Embeds c.rest c'.rest) c) (grows : ∀ Z, Extends Z r.next.expression) :
    r.next.Build C (n + 1) where
  typePath := Grammar.typePath_builds h
  expression := Grammar.expression_builds h
  unary := Grammar.unary_builds h
  statement := Grammar.statement_builds h
  declaration := Grammar.declaration_builds h
  embeds := embeds
  grows := grows

theorem upTo_front : ∀ n, (upTo n).Build .front n
  | 0 => exhausted_build
  | n + 1 => (upTo_front n).next (fun _ _ _ _ _ _ => trivial) fun _ => (Grammar.expression_builds (upTo_front n)).extend

theorem upTo_build
    (embeds : ∀ n c, C.Ready c → c.rest.length < n → wp (upTo n).expression (fun _ c' => C.Embeds c.rest c'.rest) c) :
    ∀ n, (upTo n).Build C n
  | 0 => exhausted_build
  | n + 1 => (upTo_build embeds n).next (embeds (n + 1)) (upTo_front (n + 1)).grows

end Rules

/-! ## Whole programs -/

section
variable {C : Course} {tokens : List Token} {nextId : Nat} {c : Cursor}

theorem Cursor.ofTokens?_ready (ends : ∀ t ∈ tokens.getLast?, t.kind = .eof) (knows : ∀ t ∈ tokens, C.Knows t)
    (closes : ∀ t ∈ tokens, t.kind = .eof → C.Closes t) (start : ofTokens? tokens nextId = some c) : C.Ready c := by
  unfold ofTokens? at start
  split at start
  · cases start
  · rename_i last found
    have mem : last ∈ tokens := List.mem_of_getLast? found
    have eof : last.kind = .eof := ends last (by simp [found])
    cases start
    constructor
    · cases first : tokens.find? (·.kind = .eof) with
      | none => exact closes last mem eof
      | some t => exact closes t (List.mem_of_find?_eq_some first) (by simpa using List.find?_some first)
    · intro t ht
      exact ⟨by simpa using List.all_eq_true.mp List.all_takeWhile t ht, knows t (List.takeWhile_subset _ ht)⟩
    · cases tokens with
      | nil => exact absurd mem List.not_mem_nil
      | cons t ts => exact knows t List.mem_cons_self

theorem Cursor.ofTokens?_fresh (start : ofTokens? tokens nextId = some c) :
    c.nextId = nextId ∧ c.inNamespace = false ∧ c.inInterface = false := by
  unfold ofTokens? at start
  split at start <;> cases start
  exact ⟨rfl, rfl, rfl⟩

/-- What parsing a row of tokens does. -/
theorem parse_outcome (start : Cursor.ofTokens? tokens nextId = some c) (ready : C.Ready c)
    (embeds : ∀ n c, C.Ready c → c.rest.length < n →
      Parser.wp (Rules.upTo n).expression (fun _ c' => C.Embeds c.rest c'.rest) c) :
    (∀ program next, parse tokens nextId = .ok (program, next) → ∃ c', c'.nextId = next ∧
      Parser.Lays C (c.rest.length + 1) false [] [] (program.map .stmt) c c') ∧
    ∀ e, parse tokens nextId = .error e → C.Fails (c.rest.length + 1) c e := by
  have run := (Grammar.program_builds (Rules.upTo_build embeds (c.rest.length + 1))).lays [] c ready trivial
  unfold parse Parser.runs at *
  rw [start]
  simp only [StateT.run]
  cases result : Grammar.program (Rules.upTo (c.rest.length + 1)) c with
  | ok found =>
    rw [result] at run
    refine ⟨fun program next h => ?_, fun e h => by cases h⟩
    cases h
    exact ⟨_, rfl, run.1⟩
  | error e =>
    rw [result] at run
    refine ⟨fun _ _ h => (by cases h), fun e' h => ?_⟩
    cases h
    exact run

end

/-! ## Cursors over a row -/

/-- The tokens of the cursor are in the row, and only the last is an `eof`. -/
structure Cursor.Over (row : List Token) (c : Cursor) : Prop where
  previous : c.previous ∈ row
  rest : ∀ t ∈ c.rest, t ∈ row ∧ t.kind ≠ .eof
  eof : c.eof ∈ row ∧ c.eof.kind = .eof

section
variable {row : List Token} {c : Cursor}

def Course.along (row : List Token) : Course where
  Knows t := t ∈ row
  Closes t := t ∈ row ∧ t.kind = .eof
  closes h := ⟨h.2, h.1⟩
  Embeds _ _ := True
  Leads _ _ := True
  refl _ := trivial
  trans _ _ := trivial
  plain _ := trivial
  stitched _ := trivial

theorem Course.along_ready : (along row).Ready c ↔ c.Over row :=
  ⟨fun h => ⟨h.previous, fun t ht => (h.inner t ht).symm, h.eof⟩,
    fun h => ⟨h.eof, fun t ht => (h.rest t ht).symm, h.previous⟩⟩

theorem Rules.upTo_over (row : List Token) (n : Nat) : (upTo n).Build (.along row) n :=
  upTo_build (fun _ _ _ _ _ _ _ => trivial) n

namespace Cursor.Over

theorem peek (h : c.Over row) : c.peek ∈ row := knows_peek (Course.along_ready.mpr h)

theorem advance (h : c.Over row) : c.advance.Over row :=
  Course.along_ready.mp (ready_advance (Course.along_ready.mpr h))

theorem skipNewlines (h : c.Over row) : c.skipNewlines.Over row :=
  Course.along_ready.mp (from_skipNewlines (n := 0) (Course.along_ready.mpr h) []).1.ready

end Cursor.Over

theorem Parser.BuildsIf.wp_over {α : Type} {H : Cursor → Prop} {M : α → Bool} {n : Nat} {ks : List Workpiece}
    {p : Parser α}
    {P : α → Prop} {A : α → List Workpiece} (h : BuildsIf (.along row) H M n ks p P A) (inRow : c.Over row) (hc : H c) :
    wp p (fun _ d => d.Over row) c := by
  intro a d run
  have built := h.lays [] c (Course.along_ready.mpr inRow) hc
  exact Course.along_ready.mp ((runs_of_eq run).mp built).1.way.ready

end

end PhaseLang
