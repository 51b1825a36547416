import PhaseLang.Proofs.Grammar.Sketches
import PhaseLang.Proofs.Grammar.Wordings
import Mathlib.Data.List.Forall2

/-!
# Two readings compared

`Agrees B R p q` is a relational triple: run from cursors over like tokens, the parsers `p` and `q`
end at cursors over like tokens, with results in the relation `R`. A `Bond` says what is kept of the
two readings. If it is strict, the two readings fail together and for the same reason; if not,
nothing is said where one of them fails, and the two may then stand in different surroundings. If it
is worded, the texts among the tokens are clean, and so are those in the trees. If it is unbounded,
nothing is said where one of them stalls, and the two may then have rules of different depths.
-/

namespace PhaseLang

variable {kind : TokenKind} {problem : SyntaxProblem}

/-! ## Bonds -/

structure Bond where
  strict : Bool
  left : Sketch
  right : Sketch
  worded : Bool
  unbounded : Bool

namespace Bond

variable (B : Bond)

def Clean (w : Wording) : Prop := B.worded = true → w.Clean

def Places (p q : Position) : Prop := B.left.start p.start = B.right.start q.start

section
variable {α : Type}

/-- Two trees of which the same is kept, with clean texts. -/
@[simp] abbrev Same (f : Sketch → α → α) (w : α → List Wording) (a b : α) : Prop :=
  f B.left a = f B.right b ∧ Fits B.Clean (w a)

@[simp] abbrev Lists (f : Sketch → α → α) (w : α → List Wording) : List α → List α → Prop :=
  B.Same (fun v => List.map (f v)) (List.flatMap w)

@[simp] abbrev Options (f : Sketch → α → α) (w : α → List Wording) : Option α → Option α → Prop :=
  B.Same (fun v => Option.map (f v)) fun o => o.toList.flatMap w

end

@[simp] abbrev Exprs : Expr → Expr → Prop := B.Same Sketch.expr Worded.ofExpr

@[simp] abbrev Kinds : ExprKind → ExprKind → Prop := B.Same Sketch.exprKind Worded.ofKind

@[simp] abbrev Stmts : Stmt → Stmt → Prop := B.Same Sketch.stmt Worded.ofStmt

@[simp] abbrev Params : List Param → List Param → Prop := B.Lists Sketch.param Worded.ofParam

@[simp] abbrev Attributes : List Expr → List Expr → Prop := B.Lists Sketch.expr Worded.ofExpr

@[simp] abbrev Funcs : Func → Func → Prop := B.Same Sketch.func Worded.ofFunc

@[simp] abbrev Members : Member → Member → Prop := B.Same Sketch.member Worded.ofMember

structure Tokens (t u : Token) : Prop where
  kind : u.kind = t.kind
  lexeme : u.lexeme = t.lexeme
  literal : u.literal = t.literal
  places : B.Places t.pos u.pos
  clean : B.worded = true → t.Clean

structure Read (expected : TokenKind) (t u : Token) : Prop extends B.Tokens t u where
  isKind : t.kind = expected

structure Cursors (c d : Cursor) : Prop where
  previous : B.Places c.previous.pos d.previous.pos
  rest : List.Forall₂ B.Tokens c.rest d.rest
  eof : B.Tokens c.eof d.eof
  inNamespace : B.strict = true → d.inNamespace = c.inNamespace
  inInterface : B.strict = true → d.inInterface = c.inInterface
  ids : ∀ n, B.left.id (c.nextId + n) = B.right.id (d.nextId + n)

/-- A reading may fail so on its own. -/
def Excuses (e : SyntaxError) : Prop := B.strict = false ∨ B.unbounded = true ∧ e.problem = .stalled

def Outcomes {α β : Type} (R : α → β → Prop) :
    Except SyntaxError (α × Cursor) → Except SyntaxError (β × Cursor) → Prop
  | .ok (a, c), .ok (b, d) => R a b ∧ B.Cursors c d
  | .error e, .error f => f.problem = e.problem ∨ B.Excuses e ∨ B.Excuses f
  | .error e, .ok _ | .ok _, .error e => B.Excuses e

section
variable {B : Bond} {c d : Cursor} {t u : Token}

theorem clean_of {w : Wording} (h : w.Clean) : B.Clean w := fun _ => h

theorem clean_path {p : TypePath} (h : ∀ s ∈ p.segments, B.Clean (.name s)) : B.Clean (.path p) :=
  fun worded s hs => h s hs worded

theorem Tokens.text (h : B.Tokens t u) : u.text = t.text := by
  rw [Token.text, Token.text, h.literal, h.lexeme]

theorem Tokens.read (h : B.Tokens t u) (isKind : t.kind = kind) : B.Read kind t u := ⟨h, isKind⟩

theorem Tokens.string (h : B.Tokens t u) (kind : t.kind = .string ∨ t.kind = .interpolation) :
    B.Clean (.literal (.string t.text)) := fun worded => (h.clean worded).string kind

theorem Read.word (h : B.Read kind t u) (name : kind.isName = true) : B.Clean (.name t.lexeme) :=
  fun worded => (h.clean worded).word (h.isKind ▸ name)

theorem Read.function (h : B.Read .identifier t u) : B.Clean (.function t.lexeme) :=
  fun worded => ⟨(h.clean worded).word (h.isKind ▸ rfl), (h.clean worded).function h.isKind⟩

theorem Read.number (h : B.Read .number t u) : B.Clean (.literal (.number t.lexeme)) :=
  fun worded => (h.clean worded).number h.isKind

theorem Places.merge {p q : Position} (h : B.Places p q) (p' q' : Position) :
    B.Places (p.merge p') (q.merge q') := h

theorem not_excuses (strict : B.strict = true) (bounded : B.unbounded = false) (e : SyntaxError) : ¬ B.Excuses e := by
  simp [Excuses, strict, bounded]

theorem outcomes_error_left {α β : Type} {R : α → β → Prop} {e : SyntaxError} (excused : B.Excuses e)
    {o : Except SyntaxError (β × Cursor)} : B.Outcomes R (.error e) o := by
  cases o with
  | ok _ => exact excused
  | error _ => exact .inr (.inl excused)

theorem outcomes_error_right {α β : Type} {R : α → β → Prop} {e : SyntaxError} (excused : B.Excuses e)
    {o : Except SyntaxError (α × Cursor)} : B.Outcomes R o (.error e) := by
  cases o with
  | ok _ => exact excused
  | error _ => exact .inr (.inr excused)

theorem tokens_headD {ts us : List Token} (h : List.Forall₂ B.Tokens ts us) (eof : B.Tokens t u) :
    B.Tokens (ts.headD t) (us.headD u) := by
  cases h with
  | nil => exact eof
  | cons head _ => exact head

namespace Cursors

theorem peek (h : B.Cursors c d) : B.Tokens c.peek d.peek := tokens_headD h.rest h.eof

theorem peekNext (h : B.Cursors c d) : B.Tokens c.peekNext d.peekNext := by
  refine tokens_headD ?_ h.eof
  generalize c.rest = ts, d.rest = us, h.rest = rest
  cases rest with
  | nil => exact .nil
  | cons _ tail => exact tail

theorem advance (h : B.Cursors c d) : B.Cursors c.advance d.advance := by
  obtain ⟨previous, rest, eof, inNamespace, inInterface, nextId⟩ := c
  obtain ⟨previous', rest', eof', inNamespace', inInterface', nextId'⟩ := d
  obtain ⟨hp, hr, he, hn, hi, hd⟩ := h
  cases hr with
  | nil => exact ⟨hp, .nil, he, hn, hi, hd⟩
  | cons head tail => exact ⟨head.places, tail, he, hn, hi, hd⟩

theorem skipNewlines_go (h : B.Cursors c d) {ts us : List Token} (rest : List.Forall₂ B.Tokens ts us) :
    ∀ {t u : Token}, B.Places t.pos u.pos →
    B.Cursors (Cursor.skipNewlines.go c t ts) (Cursor.skipNewlines.go d u us) := by
  induction rest with
  | nil => exact fun hp => ⟨hp, .nil, h.eof, h.inNamespace, h.inInterface, h.ids⟩
  | cons head tail ih =>
    intro t u hp
    unfold Cursor.skipNewlines.go
    rw [head.kind]
    split
    · exact ih head.places
    · exact ⟨hp, .cons head tail, h.eof, h.inNamespace, h.inInterface, h.ids⟩

theorem skipNewlines (h : B.Cursors c d) : B.Cursors c.skipNewlines d.skipNewlines :=
  h.skipNewlines_go h.rest h.previous

end Cursors

end

end Bond

namespace Parser

variable {α β γ δ σ τ : Type}

/-! ## The triple -/

def Agrees (B : Bond) (R : α → β → Prop) (p : Parser α) (q : Parser β) : Prop :=
  ∀ c d, B.Cursors c d → B.Outcomes R (p c) (q d)

section
variable {B : Bond} {R R' : α → β → Prop} {S : γ → δ → Prop} {p : Parser α} {q : Parser β}
  {f : α → Parser γ} {g : β → Parser δ}

theorem agrees_pure {a : α} {b : β} (h : R a b) : Agrees B R (pure a) (pure b) := fun _ _ hc => ⟨h, hc⟩

theorem Agrees.bind (h : Agrees B R p q) (hf : ∀ a b, R a b → Agrees B S (f a) (g b)) :
    Agrees B S (p >>= f) (q >>= g) := by
  intro c d hc
  have first := h c d hc
  show B.Outcomes S (do let (a, s) ← p c; f a s : Except SyntaxError (γ × Cursor))
    (do let (b, s) ← q d; g b s : Except SyntaxError (δ × Cursor))
  cases hp : p c with
  | ok r =>
    cases hq : q d with
    | ok r' =>
      rw [hp, hq] at first
      exact hf _ _ first.1 _ _ first.2
    | error e =>
      rw [hp, hq] at first
      exact Bond.outcomes_error_right first
  | error e =>
    cases hq : q d with
    | ok r' =>
      rw [hp, hq] at first
      exact Bond.outcomes_error_left first
    | error e' =>
      rw [hp, hq] at first
      exact first

@[simp] abbrev Equal (P : α → Prop) (a b : α) : Prop := a = b ∧ P a

theorem Agrees.given {P : α → Prop} {p q : Parser α} {g : α → Parser δ} (h : Agrees B (Equal P) p q)
    (hf : ∀ a, P a → Agrees B S (f a) (g a)) : Agrees B S (p >>= f) (q >>= g) :=
  h.bind fun a _ e => e.1 ▸ hf a e.2

theorem Agrees.next {p q : Parser α} {g : α → Parser δ} (h : Agrees B Eq p q) (hf : ∀ a, Agrees B S (f a) (g a)) :
    Agrees B S (p >>= f) (q >>= g) :=
  h.bind fun a _ e => e ▸ hf a

theorem Agrees.andThen {p' : Parser γ} {q' : Parser δ} (h : Agrees B R p q) (h' : Agrees B S p' q') :
    Agrees B S (p >>= fun _ => p') (q >>= fun _ => q') :=
  h.bind fun _ _ _ => h'

theorem Agrees.seq {p' : Parser γ} {q' : Parser δ} (h : Agrees B R p q) (h' : Agrees B S p' q') :
    Agrees B S (p *> p') (q *> q') := by
  rw [seqRight_eq_bind, seqRight_eq_bind]
  exact h.bind fun _ _ _ => h'

theorem agrees_ite {b : Prop} [Decidable b] {p' : Parser α} {q' : Parser β} (h : Agrees B R p q)
    (h' : Agrees B R p' q') : Agrees B R (if b then p else p') (if b then q else q') := by
  split
  · exact h
  · exact h'

/-! ## Steps -/

theorem agrees_failAt {t u : Token} :
    Agrees B R (failAt t problem) (failAt u problem) := fun _ _ _ => .inl rfl

theorem agrees_fail : Agrees B R (fail problem) (fail problem) := fun _ _ _ => .inl rfl

theorem agrees_failAt_bind (t u : Token) :
    Agrees B S (failAt t problem >>= f) (failAt u problem >>= g) := fun _ _ _ => .inl rfl

theorem agrees_get : Agrees B B.Cursors get get := fun _ _ hc => ⟨hc, hc⟩

theorem agrees_modify {f g : Cursor → Cursor} (h : ∀ c d, B.Cursors c d → B.Cursors (f c) (g d)) :
    Agrees B Eq (modify f) (modify g) := fun c d hc => ⟨rfl, h c d hc⟩

theorem agrees_peek : Agrees B B.Tokens peek peek := fun _ _ hc => ⟨hc.peek, hc⟩

theorem agrees_peekNext : Agrees B B.Tokens peekNext peekNext := fun _ _ hc => ⟨hc.peekNext, hc⟩

theorem agrees_previous : Agrees B (fun t u => B.Places t.pos u.pos) previous previous :=
  fun _ _ hc => ⟨hc.previous, hc⟩

theorem agrees_advance : Agrees B B.Tokens advance advance := fun _ _ hc => ⟨hc.peek, hc.advance⟩

theorem agrees_atKind : Agrees B Eq (atKind kind) (atKind kind) :=
  agrees_peek.bind fun t u h => agrees_pure (by rw [h.kind])

theorem agrees_take : Agrees B Eq (take kind) (take kind) :=
  agrees_atKind.next fun _ => agrees_ite (agrees_advance.andThen (agrees_pure rfl)) (agrees_pure rfl)

theorem agrees_consume (kind : TokenKind) (problem : SyntaxProblem) :
    Agrees B (B.Read kind) (consume kind problem) (consume kind problem) := by
  intro c d hc
  show B.Outcomes _ ((if c.peek.kind == kind then advance else fail problem) c)
    ((if d.peek.kind == kind then advance else fail problem) d)
  rw [hc.peek.kind]
  split
  · rename_i same
    exact ⟨hc.peek.read (beq_iff_eq.mp same), hc.advance⟩
  · exact .inl rfl

theorem agrees_expect {what : String} :
    Agrees B (B.Read kind) (expect kind what) (expect kind what) := agrees_consume kind _

theorem agrees_newlines : Agrees B Eq newlines newlines := agrees_modify fun _ _ hc => hc.skipNewlines

theorem agrees_takeOnNextLine : Agrees B Eq (takeOnNextLine kind) (takeOnNextLine kind) := by
  refine agrees_get.bind fun c d hc => ?_
  dsimp only
  rw [hc.skipNewlines.peek.kind]
  refine agrees_ite ?_ (agrees_pure rfl)
  exact Agrees.next (fun _ _ _ => ⟨rfl, hc.skipNewlines.advance⟩) fun _ => agrees_pure rfl

theorem agrees_continueLine : Agrees B Eq continueLine continueLine := by
  refine agrees_get.bind fun c d hc => ?_
  dsimp only
  rw [hc.skipNewlines.peek.kind]
  exact agrees_ite (fun _ _ _ => ⟨rfl, hc.skipNewlines⟩) (agrees_pure rfl)

theorem agrees_endStatement : Agrees B Eq endStatement endStatement := by
  refine agrees_peek.bind fun t u h => ?_
  rw [h.kind]
  split
  · exact agrees_pure rfl
  · exact agrees_pure rfl
  · exact agrees_advance.bind fun _ _ _ => agrees_newlines
  · exact agrees_advance.bind fun _ _ _ => agrees_newlines
  · exact agrees_fail

theorem agrees_spanFrom {t u : Token} (h : B.Places t.pos u.pos) : Agrees B B.Places (spanFrom t) (spanFrom u) :=
  agrees_previous.bind fun _ _ _ => agrees_pure (h.merge _ _)

theorem agrees_node {kind kind' : ExprKind} (h : B.Kinds kind kind') {pos pos' : Position} :
    Agrees B B.Exprs (node kind pos) (node kind' pos') := by
  intro c d hc
  refine ⟨⟨?_, by simpa using h.2⟩, hc.previous, hc.rest, hc.eof, hc.inNamespace, hc.inInterface, fun n => ?_⟩
  · have id := hc.ids 0
    simp only [Sketch.expr, Expr.mk.injEq]
    exact ⟨id, trivial, h.1⟩
  · have id := hc.ids (1 + n)
    rwa [← Nat.add_assoc, ← Nat.add_assoc] at id

/-! ## Loops -/

inductive Rounds (S : σ → τ → Prop) (R : α → β → Prop) : Round σ α → Round τ β → Prop
  | again {s : σ} {s' : τ} (h : S s s') : Rounds S R (.again s) (.again s')
  | done {a : α} {b : β} (h : R a b) : Rounds S R (.done a) (.done b)

theorem agrees_iterateFor {S : σ → τ → Prop} {round : σ → Parser (Round σ α)} {round' : τ → Parser (Round τ β)}
    (step : ∀ s s', S s s' → Agrees B (Rounds S R) (round s) (round' s')) :
    ∀ (n : Nat) {s : σ} {s' : τ}, S s s' → Agrees B R (iterateFor round n s) (iterateFor round' n s')
  | 0, _, _, _ => agrees_fail
  | n + 1, s, s', h => by
    refine (step s s' h).bind fun a b hr => ?_
    cases hr with
    | again h => exact agrees_iterateFor step n h
    | done h => exact agrees_pure h

theorem agrees_iterate (S : σ → τ → Prop) {round : σ → Parser (Round σ α)} {round' : τ → Parser (Round τ β)}
    {s : σ} {s' : τ} (start : S s s') (step : ∀ s s', S s s' → Agrees B (Rounds S R) (round s) (round' s')) :
    Agrees B R (iterate round s) (iterate round' s') := by
  refine agrees_get.bind fun c d hc => ?_
  rw [hc.rest.length_eq]
  exact agrees_iterateFor step _ start

end

section
variable {B : Bond} {f : Sketch → α → α} {w : α → List Wording} {item item' : Parser α}

theorem agrees_itemsUntil {stop : TokenKind → Bool} (h : Agrees B (B.Same f w) item item') :
    Agrees B (B.Lists f w) (itemsUntil stop item) (itemsUntil stop item') := by
  refine agrees_iterate (B.Lists f w) (by simp) fun items items' hs => agrees_peek.bind fun t u ht => ?_
  rw [ht.kind]
  refine agrees_ite (agrees_pure (.done (by simp [hs]))) ?_
  exact h.bind fun a b hab => agrees_newlines.next fun _ => agrees_pure (.again (by simp [hab, hs]))

theorem agrees_separated (h : Agrees B (B.Same f w) item item') :
    Agrees B (B.Lists f w) (separated item) (separated item') := by
  refine agrees_iterate (B.Lists f w) (by simp) fun items items' hs => ?_
  refine agrees_newlines.next fun _ => h.bind fun a b hab => agrees_newlines.next fun _ => ?_
  refine agrees_take.next fun _ => agrees_ite (agrees_pure (.again ?_)) (agrees_pure (.done ?_))
  · simp [hab, hs]
  · simp [hab, hs]

theorem agrees_parenthesized (h : Agrees B (B.Same f w) item item') (what : String) :
    Agrees B (B.Lists f w) (parenthesized item what) (parenthesized item' what) := by
  refine agrees_newlines.next fun _ => Agrees.bind (R := B.Lists f w) ?_ fun items items' hs =>
    agrees_expect.bind fun _ _ _ => agrees_pure hs
  refine agrees_iterate (B.Lists f w) (by simp) fun items items' hs => ?_
  refine agrees_atKind.next fun _ => agrees_ite (agrees_pure (.done (by simp [hs]))) ?_
  refine h.bind fun a b hab => agrees_newlines.next fun _ => agrees_take.next fun _ => ?_
  refine agrees_ite (agrees_newlines.andThen (agrees_pure (.again ?_))) (agrees_pure (.done ?_))
  · simp [hab, hs]
  · simp [hab, hs]

theorem agrees_after? (kind : TokenKind) (h : Agrees B (B.Same f w) item item') :
    Agrees B (B.Options f w) (after? kind item) (after? kind item') :=
  agrees_take.next fun _ => agrees_ite (h.bind fun a b hab => agrees_pure (by simp [hab]))
    (agrees_pure (by simp))

/-! Items of which everything is kept -/

variable {P : α → Prop}

theorem agrees_separated_eq (h : Agrees B (Equal P) item item') :
    Agrees B (Equal fun items => ∀ a ∈ items, P a) (separated item) (separated item') := by
  refine agrees_iterate (Equal fun items => ∀ a ∈ items, P a) (by simp) fun items items' hs => ?_
  obtain ⟨rfl, hs⟩ := hs
  refine agrees_newlines.next fun _ => h.given fun a ha => agrees_newlines.next fun _ => ?_
  refine agrees_take.next fun _ => agrees_ite (agrees_pure (.again ?_)) (agrees_pure (.done ?_))
  · simpa using ⟨ha, hs⟩
  · simpa [or_imp, forall_and] using ⟨hs, ha⟩

theorem agrees_after?_eq (kind : TokenKind) (h : Agrees B (Equal P) item item') :
    Agrees B (Equal fun x => ∀ a ∈ x, P a) (after? kind item) (after? kind item') :=
  agrees_take.next fun _ => agrees_ite (h.given fun a ha => agrees_pure (by simpa using ha))
    (agrees_pure (by simp))

end

end Parser

/-! ## Rules -/

structure Rules.Agree (B : Bond) (r r' : Rules) : Prop where
  typePath : ∀ allowNullable, Parser.Agrees B (Parser.Equal fun p => B.Clean (.path p)) (r.typePath allowNullable)
    (r'.typePath allowNullable)
  expression : Parser.Agrees B B.Exprs r.expression r'.expression
  unary : Parser.Agrees B B.Exprs r.unary r'.unary
  statement : Parser.Agrees B B.Stmts r.statement r'.statement
  declaration : Parser.Agrees B B.Stmts r.declaration r'.declaration

end PhaseLang
