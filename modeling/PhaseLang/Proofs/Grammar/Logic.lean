import PhaseLang.Grammar.Cursor

/-!
# What parsers ensure

`wp p Q c` says that whatever the parser `p` returns from the cursor `c` satisfies `Q`; a parser
that fails returns nothing. A rule of the grammar is opened by rewriting `wp` through its steps,
and a loop by an invariant of its rounds.
-/

namespace PhaseLang

namespace Cursor

end Cursor

namespace Parser

variable {α β σ : Type} {p : Parser α} {f : α → Parser β} {c : Cursor}

def wp (p : Parser α) (Q : α → Cursor → Prop) (c : Cursor) : Prop :=
  ∀ a c', p c = .ok (a, c') → Q a c'

theorem wp_mono {Q R : α → Cursor → Prop} (h : wp p Q c) (hQ : ∀ a c', Q a c' → R a c') : wp p R c :=
  fun a c' hp => hQ a c' (h a c' hp)

/-! ## Steps -/

@[simp] theorem wp_pure {Q : α → Cursor → Prop} (a : α) : wp (pure a) Q c ↔ Q a c := by
  refine ⟨fun h => h a c rfl, fun h b c' hb => ?_⟩
  cases hb
  exact h

@[simp] theorem wp_bind {Q : β → Cursor → Prop} : wp (p >>= f) Q c ↔ wp p (fun a c' => wp (f a) Q c') c := by
  refine ⟨fun h a c' hp b c'' hf => h b c'' ?_, fun h b c'' hb => ?_⟩
  · change (do let (a, s) ← p c; f a s : Except SyntaxError (β × Cursor)) = _
    rw [hp]
    exact hf
  · change (do let (a, s) ← p c; f a s : Except SyntaxError (β × Cursor)) = _ at hb
    cases hp : p c with
    | error e => rw [hp] at hb; cases hb
    | ok r => rw [hp] at hb; exact h r.1 r.2 hp b c'' hb

@[simp] theorem wp_map {g : α → β} {Q : β → Cursor → Prop} : wp (g <$> p) Q c ↔ wp p (fun a c' => Q (g a) c') c := by
  rw [← bind_pure_comp, wp_bind]
  simp only [wp_pure]

@[simp] theorem wp_seqRight {q : Parser β} {Q : β → Cursor → Prop} :
    wp (p *> q) Q c ↔ wp p (fun _ c' => wp q Q c') c :=
  wp_bind

@[simp] theorem wp_get {Q : Cursor → Cursor → Prop} : wp get Q c ↔ Q c c := by
  refine ⟨fun h => h c c rfl, fun h b c' hb => ?_⟩
  cases hb
  exact h

@[simp] theorem wp_set {Q : PUnit → Cursor → Prop} (d : Cursor) : wp (set d) Q c ↔ Q ⟨⟩ d := by
  refine ⟨fun h => h _ d rfl, fun h b c' hb => ?_⟩
  cases hb
  exact h

@[simp] theorem wp_modify {Q : PUnit → Cursor → Prop} (g : Cursor → Cursor) : wp (modify g) Q c ↔ Q ⟨⟩ (g c) := by
  refine ⟨fun h => h _ (g c) rfl, fun h b c' hb => ?_⟩
  cases hb
  exact h

@[simp] theorem wp_failAt {Q : α → Cursor → Prop} {token : Token} {problem : SyntaxProblem} :
    wp (failAt token problem) Q c := by
  intro a c' h
  cases h

@[simp] theorem wp_fail {Q : α → Cursor → Prop} {problem : SyntaxProblem} : wp (fail problem) Q c := by
  intro a c' h
  cases h

variable {Q : Token → Cursor → Prop}

@[simp] theorem wp_peek : wp peek Q c ↔ Q c.peek c := by
  simp [peek]

@[simp] theorem wp_peekNext : wp peekNext Q c ↔ Q c.peekNext c := by
  simp [peekNext]

@[simp] theorem wp_previous : wp previous Q c ↔ Q c.previous c := by
  simp [previous]

@[simp] theorem wp_advance : wp advance Q c ↔ Q c.peek c.advance := by
  simp [advance]

@[simp] theorem wp_atKind {Q : Bool → Cursor → Prop} (kind : TokenKind) :
    wp (atKind kind) Q c ↔ Q (c.peek.kind == kind) c := by
  simp [atKind]

@[simp] theorem wp_atEnd {Q : Bool → Cursor → Prop} : wp atEnd Q c ↔ Q (c.peek.kind == .eof) c := by
  simp [atEnd]

@[simp] theorem wp_newlines {Q : Unit → Cursor → Prop} : wp newlines Q c ↔ Q () c.skipNewlines := by
  simp [newlines]

@[simp] theorem wp_spanFrom {Q : Position → Cursor → Prop} (start : Token) :
    wp (spanFrom start) Q c ↔ Q (start.pos.merge c.previous.pos) c := by
  simp [spanFrom]

@[simp] theorem wp_node {Q : Expr → Cursor → Prop} (kind : ExprKind) (pos : Position) :
    wp (node kind pos) Q c ↔ Q ⟨c.nextId, pos, kind⟩ { c with nextId := c.nextId + 1 } := by
  simp [node]

@[simp] theorem wp_ite {Q : α → Cursor → Prop} {q : Parser α} {b : Prop} [Decidable b] :
    wp (if b then p else q) Q c ↔ (b → wp p Q c) ∧ (¬ b → wp q Q c) := by
  split <;> simp [*]

@[simp] theorem wp_take {Q : Bool → Cursor → Prop} (kind : TokenKind) :
    wp (take kind) Q c ↔
      (c.peek.kind = kind → Q true c.advance) ∧ (c.peek.kind ≠ kind → Q false c) := by
  simp [take]

@[simp] theorem wp_consume (kind : TokenKind) (problem : SyntaxProblem) :
    wp (consume kind problem) Q c ↔ (c.peek.kind = kind → Q c.peek c.advance) := by
  simp [consume]

@[simp] theorem wp_expect (kind : TokenKind) (what : String) :
    wp (expect kind what) Q c ↔ (c.peek.kind = kind → Q c.peek c.advance) :=
  wp_consume kind _

@[simp] theorem wp_continueLine {Q : Unit → Cursor → Prop} :
    wp continueLine Q c ↔
      (c.skipNewlines.peek.kind.isContinuation = true → Q () c.skipNewlines) ∧
      (c.skipNewlines.peek.kind.isContinuation = false → Q () c) := by
  simp [continueLine]

@[simp] theorem wp_after? {Q : Option α → Cursor → Prop} (kind : TokenKind) :
    wp (after? kind p) Q c ↔
      (c.peek.kind = kind → wp p (fun a c' => Q (some a) c') c.advance) ∧
      (c.peek.kind ≠ kind → Q none c) := by
  simp [after?]

/-! ## Loops -/

theorem wp_iterateFor {round : σ → Parser (Round σ α)} {I : σ → Cursor → Prop} {Q : α → Cursor → Prop}
    (step : ∀ s c, I s c → wp (round s) (fun r c' =>
      match r with
      | .again s' => I s' c'
      | .done a => Q a c') c) :
    ∀ (rounds : Nat) (s : σ) (c : Cursor), I s c → wp (iterateFor round rounds s) Q c
  | 0, _, _, _ => by simp [iterateFor]
  | rounds + 1, s, c, h => by
    unfold iterateFor
    rw [wp_bind]
    refine wp_mono (step s c h) fun r c' hr => ?_
    cases r with
    | again s' => exact wp_iterateFor step rounds s' c' hr
    | done a => exact (wp_pure a).mpr hr

theorem wp_iterate {round : σ → Parser (Round σ α)} {I : σ → Cursor → Prop} {Q : α → Cursor → Prop}
    {s : σ} (start : I s c) (step : ∀ s c, I s c → wp (round s) (fun r c' =>
      match r with
      | .again s' => I s' c'
      | .done a => Q a c') c) : wp (iterate round s) Q c := by
  unfold iterate
  rw [wp_bind, wp_get]
  exact wp_iterateFor step _ s c start

theorem wp_parenthesized {I : List α → Cursor → Prop} {what : String} (start : I [] c)
    (skip : ∀ xs c, I xs c → I xs c.skipNewlines ∧ I xs c.advance)
    (step : ∀ xs c, I xs c → wp p (fun x c' => I (xs ++ [x]) c') c) : wp (parenthesized p what) I c := by
  simp only [parenthesized, wp_bind, wp_newlines]
  refine wp_mono (wp_iterate (I := fun xs c => I xs.reverse c) (Q := I) (skip _ c start).1
    fun xs c h => ?_) fun xs c' h => ?_
  · simp only [wp_bind, wp_atKind, wp_ite, wp_pure, wp_newlines, wp_take]
    refine ⟨fun _ => h, fun _ => wp_mono (step _ c h) fun x c' hx => ?_⟩
    have hx := (skip _ c' hx).1
    refine ⟨fun _ => ?_, fun _ => ?_⟩
    · simpa using (skip _ _ (skip _ _ hx).2).1
    · simpa using hx
  · simp only [wp_expect, wp_pure]
    exact fun _ => (skip _ c' h).2

end Parser

end PhaseLang
