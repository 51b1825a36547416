import PhaseLang.Proofs.Grammar.Pipelines

/-!
# An operator, or a line break and an operator

A `Seam` is an operator that continues a line, with more behind it, and a line break that may stand in
front of it. Three readings are compared: of a row by itself, of the row with the operator behind it,
and of the same with the break in between. `Meets` says how the last two go on where the first has come
to its end. That depends on how the expression at the end of the row ends, which is its `edge`.
-/

namespace PhaseLang

variable {c d : Cursor}

/-! ## How expressions end -/

inductive Edge
  /-- With a chain of calls, members and indices, or a branch that ends so. -/
  | chain
  /-- With `++` or `--`. -/
  | step
  /-- With the type of a test. -/
  | test
deriving DecidableEq

mutual

def Expr.edge : Expr → Edge
  | ⟨_, _, kind⟩ => kind.edge

def ExprKind.edge : ExprKind → Edge
  | .ternary _ _ no => no.edge
  | .assign _ value | .set _ _ value | .indexSet _ _ value => value.edge
  | .binary _ _ rhs | .logical _ _ rhs | .range _ rhs => rhs.edge
  | .unary _ operand true => operand.edge
  | .unary _ _ false => .step
  | .isType _ _ => .test
  | _ => .chain

end

mutual

theorem Sketch.edge_expr (v : Sketch) : ∀ e : Expr, (v.expr e).edge = e.edge
  | ⟨_, _, kind⟩ => by
    exact v.edge_exprKind kind

theorem Sketch.edge_exprKind (v : Sketch) : ∀ kind : ExprKind, (v.exprKind kind).edge = kind.edge
  | .assign _ last | .set _ _ last | .indexSet _ _ last | .binary _ _ last | .logical _ _ last | .range _ last
  | .unary _ last true | .ternary _ _ last => by
    exact v.edge_expr last
  | .unary _ _ false => rfl
  | .attribute _ _ | .isType _ _ | .call _ _ | .get _ _ | .indexGet _ _ | .super _ | .path _ | .this | .static
  | .group _
  | .literal _ | .list _ _ | .map _ _ | .lambda _ | .ident _ | .choose _ _ => rfl

end

/-- The operator goes on with an expression that ends so on one line, but not on the next. -/
def Edge.parts : Edge → TokenKind → Bool
  | .chain, _ => false
  | .step, kind => kind != .dot
  | .test, kind => kind == .equalEqual || kind == .bangEqual || kind == .andAnd || kind == .orOr

/-- The operator does not go on with an expression that ends with a step, or, if it may end with a test, with a test. -/
def TokenKind.isFree (tests : Bool) (kind : TokenKind) : Bool :=
  !Edge.step.parts kind || (tests && !Edge.test.parts kind)

/-- What comes behind the expression becomes part of it, also on the next line. -/
def Expr.Soft (e : Expr) : Prop := e.edge = .chain ∨ e.endsInBranch = true

instance (e : Expr) : Decidable e.Soft := inferInstanceAs (Decidable (_ ∨ _))

/-! ## Readings that differ in places and ids -/

def Bond.bare : Bond := ⟨true, .bare, .bare, false, false⟩

@[simp] theorem Bond.bare_left : Bond.bare.left = .bare := rfl

@[simp] theorem Bond.bare_right : Bond.bare.right = .bare := rfl

theorem Bond.bare_places (p q : Position) : Bond.bare.Places p q := rfl

@[simp] theorem Bond.bare_fits (ws : List Wording) : Fits Bond.bare.Clean ws := fun _ _ => Bool.noConfusion

theorem Bond.bare_tokens (t : Token) : Bond.bare.Tokens t t := ⟨rfl, rfl, rfl, rfl, Bool.noConfusion⟩

theorem Bond.bare_cursors (c : Cursor) (previous : Token) : Bond.bare.Cursors c { c with previous } :=
  ⟨rfl, List.forall₂_same.mpr fun t _ => bare_tokens t, bare_tokens _, fun _ => rfl, fun _ => rfl, fun _ => rfl⟩

namespace Parser

variable {α β : Type}

theorem of_run_bind {p : Parser α} {f : α → Parser β} {b : β} (run : (p >>= f) c = .ok (b, d)) :
    ∃ a c', p c = .ok (a, c') ∧ f a c' = .ok (b, d) := by
  obtain ⟨a, c', first, rest⟩ := (runs_bind.mp (runs_eq_iff.mpr run)).exists_ok
  exact ⟨a, c', first, runs_eq_iff.mp rest⟩

theorem bind_run_congr {p : Parser α} {f : α → Parser β} (h : p c = p d) : (p >>= f) c = (p >>= f) d := by
  show (do let (a, s) ← p c; f a s : Except SyntaxError (β × Cursor)) = (do let (a, s) ← p d; f a s)
  rw [h]

def Returns (P : α → Prop) (p : Parser α) : Prop := ∀ c, wp p (fun a _ => P a) c

section
variable {P : α → Prop} {p q : Parser α} {f : β → Parser α}

theorem returns_bind {first : Parser β} (h : ∀ b, Returns P (f b)) : Returns P (first >>= f) :=
  fun _ => wp_bind.mpr fun b d _ => h b d

theorem returns_seq {first : Parser β} (h : Returns P p) : Returns P (first *> p) := by
  rw [seqRight_eq_bind]
  exact returns_bind fun _ => h

theorem returns_ite {b : Prop} [Decidable b] (hp : Returns P p) (hq : Returns P q) :
    Returns P (if b then p else q) := by
  split
  · exact hp
  · exact hq

end

def Round.tree : Round Expr Expr → Expr
  | .again e | .done e => e

def Follows (R : α → β → Prop) (p : Parser α) (q : Parser β) : Prop :=
  ∀ c d, Bond.bare.Cursors c d → ∀ a c', p c = .ok (a, c') → ∃ b d', q d = .ok (b, d') ∧ R a b ∧ Bond.bare.Cursors c' d'

theorem Agrees.follows {R : α → β → Prop} {p : Parser α} {q : Parser β} (h : Agrees Bond.bare R p q) :
    Follows R p q := by
  intro c d like a c' run
  have outcomes := h c d like
  rw [run] at outcomes
  cases found : q d with
  | error e =>
    rw [found] at outcomes
    exact absurd outcomes (Bond.not_excuses rfl rfl e)
  | ok result =>
    rw [found] at outcomes
    exact ⟨result.1, result.2, rfl, outcomes.1, outcomes.2⟩

theorem iterateFor_done {σ : Type} {round : σ → Parser (Round σ α)} {s : σ} {a : α}
    (h : round s c = .ok (.done a, d)) {n : Nat} (positive : 0 < n) : iterateFor round n s c = .ok (a, d) := by
  cases n with
  | zero => exact absurd positive (Nat.lt_irrefl 0)
  | succ n =>
    rw [iterateFor, run_bind h]
    rfl

theorem follows_iterateFor {σ τ : Type} {R : α → β → Prop} {S : σ → τ → Prop} {round : σ → Parser (Round σ α)}
    {round' : τ → Parser (Round τ β)} (step : ∀ s s', S s s' → Agrees Bond.bare (Rounds S R) (round s) (round' s'))
    {n m : Nat} (le : n ≤ m) {s : σ} {s' : τ} (h : S s s') :
    Follows R (iterateFor round n s) (iterateFor round' m s') := by
  intro c d like a c' run
  obtain ⟨b, d', run', same, after⟩ := (agrees_iterateFor step n h).follows c d like a c' run
  exact ⟨b, d', iterateFor_mono le run', same, after⟩

end Parser

/-! ## Seams -/

/-- An operator and what comes behind it, and a line break to put in front of them. -/
structure Seam where
  operator : Token
  more : List Token
  newline : Token
  continues : operator.kind.isContinuation = true
  breaks : newline.kind = .newline

def TokenKind.continuations : List TokenKind :=
  [.dot, .plus, .concat, .pipe, .minus, .equalEqual, .bangEqual, .andAnd, .orOr]

theorem TokenKind.mem_continuations {kind : TokenKind} (h : kind.isContinuation = true) : kind ∈ continuations := by
  cases kind <;> first | decide | cases h

namespace Seam

variable (s : Seam)

def straight : Tail := ⟨s.operator :: s.more, by simpa using .inr s.continues⟩

def broken : Tail := ⟨s.newline :: s.operator :: s.more, by simpa using .inl s.breaks⟩

variable {s} {c d : Cursor}

theorem fits (h : s.broken.Fits c) (Z : Tail) : Z.Fits c :=
  ⟨h.eof, h.only, .inr (h.last.resolve_left (by simp [broken]))⟩

theorem operator_ne_newline : s.operator.kind ≠ .newline := fun newline => by
  have := s.continues
  simp [newline, TokenKind.isContinuation] at this

theorem peek_straight (ended : c.rest = []) : (c.extend s.straight).peek = s.operator := by
  simp [Cursor.peek, Cursor.extend, ended, straight]

theorem peek_broken (ended : c.rest = []) : (c.extend s.broken).peek = s.newline := by
  simp [Cursor.peek, Cursor.extend, ended, broken]

theorem skipNewlines_broken (ended : c.rest = []) :
    (c.extend s.broken).skipNewlines = { c.extend s.straight with previous := s.newline } := by
  simp [Cursor.skipNewlines, Cursor.extend, ended, broken, straight, Cursor.skipNewlines.go, s.breaks,
    operator_ne_newline]

end Seam

namespace Grammar

open PhaseLang.Parser

variable {α β : Type}

/-- The reading of a row has come to its end at `d` with the result `a`. If the expression in it is soft, `p` and `q`
go on alike, over the two rows that are longer; if not, they end at the operator and at the line break. -/
structure Meets (s : Seam) (tests : Bool) (tree : α → Expr) (R : α → α → Prop) (p q : Parser α) (c : Cursor) (a : α)
    (d : Cursor) : Prop where
  tested : (tree a).edge = .test → (tree a).endsInBranch = true ∨ tests = true
  caught : (tree a).edge.parts s.operator.kind = false → (tree a).Soft → ∀ b d₂, p (c.extend s.straight) = .ok (b, d₂) →
    ∃ b' d₃, q (c.extend s.broken) = .ok (b', d₃) ∧ R b b' ∧ Bond.bare.Cursors d₂ d₃
  passed : (tree a).edge.parts s.operator.kind = false → ¬ (tree a).Soft →
    p (c.extend s.straight) = .ok (a, d.extend s.straight)
  parted : ¬ (tree a).Soft → q (c.extend s.broken) = .ok (a, d.extend s.broken)

theorem Meets.mono {s : Seam} {tests tests' : Bool} {tree : α → Expr} {R : α → α → Prop} {p q : Parser α}
    {a : α} (h : Meets s tests tree R p q c a d) (le : tests = true → tests' = true) :
    Meets s tests' tree R p q c a d :=
  { h with tested := fun test => (h.tested test).imp id le }

theorem Meets.free {s : Seam} {tests : Bool} {tree : α → Expr} {R : α → α → Prop} {p q : Parser α} {a : α}
    (h : Meets s tests tree R p q c a d) (passes : (tree a).edge.parts s.operator.kind = false)
    (hard : ¬ (tree a).Soft) : s.operator.kind.isFree tests = true := by
  have tested := h.tested
  rw [Expr.Soft] at hard
  unfold TokenKind.isFree
  cases edge : (tree a).edge with
  | chain => exact absurd (.inl edge) hard
  | step =>
    rw [edge] at passes
    rw [passes]
    rfl
  | test =>
    rw [edge] at passes
    rw [passes, (tested edge).resolve_left fun branch => hard (.inr branch)]
    simp

section
variable {s : Seam} {tests : Bool} {tree : α → Expr} {tree' : β → Expr} {R : α → α → Prop} {R' : β → β → Prop}
  {p q : Parser α} {f g : α → Parser β} {c d d' : Cursor} {a : α} {b : β}

theorem Meets.after (straight : p (c.extend s.straight) = .ok (a, d.extend s.straight))
    (broken : q (c.extend s.broken) = .ok (a, d.extend s.broken)) (h : Meets s tests tree' R' (f a) (g a) d b d') :
    Meets s tests tree' R' (p >>= f) (q >>= g) c b d' where
  tested := h.tested
  caught free soft := by
    rw [run_bind straight, run_bind broken]
    exact h.caught free soft
  passed free hard := by
    rw [run_bind straight]
    exact h.passed free hard
  parted hard := by
    rw [run_bind broken]
    exact h.parted hard

theorem Meets.bind (h : Meets s tests tree R p q c a d) (edge : (tree' b).edge = (tree a).edge)
    (branch : (tree' b).endsInBranch = (tree a).endsInBranch) (caught : ∀ x y, R x y → Follows R' (f x) (g y))
    (passed : (tree a).edge.parts s.operator.kind = false → ¬ (tree a).Soft →
      f a (d.extend s.straight) = .ok (b, d'.extend s.straight))
    (parted : ¬ (tree a).Soft → g a (d.extend s.broken) = .ok (b, d'.extend s.broken)) :
    Meets s tests tree' R' (p >>= f) (q >>= g) c b d' := by
  have same : (tree' b).Soft ↔ (tree a).Soft := by rw [Expr.Soft, Expr.Soft, edge, branch]
  constructor
  case tested => rw [edge, branch]; exact h.tested
  case caught =>
    rw [edge, same]
    intro free soft b' d₂ run
    obtain ⟨x, e, run₁, run₂⟩ := of_run_bind run
    obtain ⟨y, e', run₃, like, cursors⟩ := h.caught free soft x e run₁
    rw [run_bind run₃]
    exact caught x y like e e' cursors b' d₂ run₂
  case passed =>
    rw [edge, same]
    intro free hard
    rw [run_bind (h.passed free hard)]
    exact passed free hard
  case parted =>
    rw [same]
    intro hard
    rw [run_bind (h.parted hard)]
    exact parted hard

end

abbrev SameTree : Expr → Expr → Prop := Bond.bare.Exprs

theorem SameTree.eq {e e' : Expr} (h : SameTree e e') : Sketch.bare.expr e = Sketch.bare.expr e' := h.1

theorem SameTree.refl (e : Expr) : SameTree e e := ⟨rfl, Bond.bare_fits _⟩

abbrev SameRound : Round Expr Expr → Round Expr Expr → Prop := Rounds SameTree SameTree

def BridgesTo (s : Seam) (tests : Bool) (tree : α → Expr) (R : α → α → Prop) (p : Parser α) : Prop :=
  ∀ c, s.broken.Fits c → wp p (fun a d => d.rest = [] → Meets s tests tree R p p c a d) c

abbrev Bridges (s : Seam) (tests : Bool) (p : Parser Expr) : Prop := BridgesTo s tests id SameTree p

section
variable {s : Seam} {tests : Bool} {tree : α → Expr} {R : α → α → Prop} {tree' : β → Expr} {R' : β → β → Prop}

theorem BridgesTo.after {γ : Type} {p : Parser γ} {f : γ → Parser α} (grows : ∀ Z, Extends Z p)
    (hungry : ∀ x, Hungry (f x)) (hf : ∀ x, BridgesTo s tests tree R (f x)) : BridgesTo s tests tree R (p >>= f) := by
  intro c fits
  rw [wp_bind]
  intro x d run a d' run' ended'
  have grown (Z : Tail) := grows Z c (s.fits fits Z) x d run
  have fits' := fits.step (grown s.broken).suffix (grown s.broken).eof
  have filled : d.rest ≠ [] := fun ended => hungry x d fits'.eof ended a d' run'
  exact .after ((grown _).same (.inr filled)) ((grown _).same (.inr filled)) (hf x d fits' a d' run' ended')

theorem Bridges.bind {tests' : Bool} {p : Parser Expr} {f : Expr → Parser Expr} (h : Bridges s tests p)
    (grows : ∀ Z, Extends Z p) (agrees : ∀ e e', SameTree e e' → Agrees Bond.bare SameTree (f e) (f e'))
    (more : ∀ (e : Expr) (c : Cursor), s.broken.Fits c → c.rest ≠ [] →
      wp (f e) (fun a d => d.rest = [] → Meets s tests' id SameTree (f e) (f e) c a d) c)
    (ended : ∀ (e : Expr) (c : Cursor), c.eof.kind = .eof → c.rest = [] → f e c = .ok (e, c))
    (passed : ∀ (e : Expr) (c : Cursor), c.rest = [] → s.operator.kind.isFree tests = true →
      f e (c.extend s.straight) = .ok (e, c.extend s.straight))
    (parted : ∀ (e : Expr) (c : Cursor), c.rest = [] → f e (c.extend s.broken) = .ok (e, c.extend s.broken))
    (le : tests = true → tests' = true) : Bridges s tests' (p >>= f) := by
  intro c fits
  rw [wp_bind]
  intro e d run a d' run' last
  have grown (Z : Tail) := grows Z c (s.fits fits Z) e d run
  have fits' := fits.step (grown s.broken).suffix (grown s.broken).eof
  by_cases nothing : d.rest = []
  · have meets := h c fits e d run nothing
    cases (ended e d fits'.eof nothing).symm.trans run'
    refine (meets.mono le).bind rfl rfl (fun x y like => (agrees x y like).follows) (fun passes hard => ?_)
      fun hard => ?_
    · exact passed _ _ nothing (meets.free passes hard)
    · exact parted _ _ nothing
  · refine .after ((grown _).same (.inr nothing)) ((grown _).same (.inr nothing)) ?_
    exact more e d fits' nothing a d' run' last

theorem BridgesTo.finish {p : Parser α} {f : α → Parser β} (h : BridgesTo s tests tree R p) (grows : ∀ Z, Extends Z p)
    (spans : ∀ Z a, Spans Z (f a))
    (stays : ∀ a (c : Cursor), wp (f a) (fun b d => d.rest = c.rest ∧ (tree' b).edge = (tree a).edge ∧
      (tree' b).endsInBranch = (tree a).endsInBranch) c)
    (agrees : ∀ a a', R a a' → Agrees Bond.bare R' (f a) (f a')) : BridgesTo s tests tree' R' (p >>= f) := by
  intro c fits
  rw [wp_bind]
  intro a d run b d' run' ended'
  obtain ⟨rest, edge, branch⟩ := stays a d b d' run'
  have grown := grows s.broken c fits a d run
  have fits' := fits.step grown.suffix grown.eof
  have last (Z : Tail) := (spans Z a d (s.fits fits' Z) b d' run').same (.inl rfl)
  refine (h c fits a d run (rest ▸ ended')).bind edge branch (fun x y like => ?_) (fun _ _ => last _) fun _ => last _
  exact (agrees x y like).follows

end

/-! ## Loops -/

/-- A loop whose rounds go on at the end of the row, and in which nothing is left to do there. -/
structure Loop (s : Seam) (tests : Bool) (round : Expr → Parser (Round Expr Expr)) : Prop where
  grows : ∀ Z e, Extends Z (round e)
  agrees : ∀ e e', SameTree e e' → Agrees Bond.bare SameRound (round e) (round e')
  more : ∀ (e : Expr) (c : Cursor), s.broken.Fits c → c.rest ≠ [] → wp (round e) (fun t d => d.rest = [] →
    Meets s tests Round.tree SameRound (round e) (round e) c t d) c
  ended : ∀ (e : Expr) (c : Cursor), c.eof.kind = .eof → c.rest = [] → round e c = .ok (.done e, c)
  passed : ∀ (e : Expr) (c : Cursor), c.rest = [] → s.operator.kind.isFree tests = true →
    round e (c.extend s.straight) = .ok (.done e, c.extend s.straight)
  parted : ∀ (e : Expr) (c : Cursor), c.rest = [] → round e (c.extend s.broken) = .ok (.done e, c.extend s.broken)

section
variable {s : Seam} {tests : Bool} {round : Expr → Parser (Round Expr Expr)}

theorem Loop.iterateFor_meets (h : Loop s tests round) :
    ∀ {n n₂ n₃ : Nat}, n ≤ n₂ → n₂ ≤ n₃ → ∀ (e : Expr) (c : Cursor),
    s.broken.Fits c → c.rest ≠ [] → wp (iterateFor round n e) (fun a d => d.rest = [] →
      Meets s tests id SameTree (iterateFor round n₂ e) (iterateFor round n₃ e) c a d) c
  | 0, _, _, _, _, _, _, _, _ => wp_fail
  | n + 1, n₂ + 1, n₃ + 1, le₂, le₃, e, c, fits, filled => by
    have le₂ := Nat.le_of_succ_le_succ le₂
    have le₃ := Nat.le_of_succ_le_succ le₃
    rw [iterateFor, iterateFor, iterateFor, wp_bind]
    intro t c₁ run
    have grown (Z : Tail) := h.grows Z e c (s.fits fits Z) t c₁ run
    have fits₁ := fits.step (grown s.broken).suffix (grown s.broken).eof
    intro a d run' ended'
    by_cases ended : c₁.rest = []
    · have meets := h.more e c fits filled t c₁ run ended
      obtain ⟨rfl, rfl, rounds⟩ : a = t.tree ∧ d = c₁ ∧ (t.isDone = true ∨ 0 < n) := by
        cases t with
        | done e' =>
          cases run'
          exact ⟨rfl, rfl, .inl rfl⟩
        | again e' =>
          cases n with
          | zero => cases run'
          | succ n =>
            cases (iterateFor_done (h.ended e' c₁ fits₁.eof ended) n.succ_pos).symm.trans run'
            exact ⟨rfl, rfl, .inr n.succ_pos⟩
      refine meets.bind rfl rfl (fun t t' like => ?_) (fun free hard => ?_) fun hard => ?_
      · cases like with
        | again like => exact follows_iterateFor h.agrees le₃ like
        | done like => exact (agrees_pure like).follows
      · cases t with
        | done e' => rfl
        | again e' =>
          have positive : 0 < n := rounds.resolve_left Bool.false_ne_true
          exact iterateFor_done (h.passed _ _ ended (meets.free free hard)) (Nat.lt_of_lt_of_le positive le₂)
      · cases t with
        | done e' => rfl
        | again e' =>
          have positive : 0 < n := rounds.resolve_left Bool.false_ne_true
          exact iterateFor_done (h.parted _ _ ended) (Nat.lt_of_lt_of_le positive (Nat.le_trans le₂ le₃))
    · cases t with
      | done _ =>
        cases run'
        exact absurd ended' ended
      | again e' =>
        refine .after ((grown _).same (.inr ended)) ((grown _).same (.inr ended)) ?_
        exact h.iterateFor_meets le₂ le₃ e' c₁ fits₁ ended a d run' ended'
  | _ + 1, 0, _, le, _, _, _, _, _ => absurd le (Nat.not_succ_le_zero _)
  | _ + 1, _ + 1, 0, _, le, _, _, _, _ => absurd le (Nat.not_succ_le_zero _)

theorem Loop.iterate_meets (h : Loop s tests round) {e : Expr} (fits : s.broken.Fits c) (filled : c.rest ≠ []) :
    wp (iterate round e) (fun a d => d.rest = [] →
      Meets s tests id SameTree (iterate round e) (iterate round e) c a d) c := by
  have le₂ : c.rest.length + 1 ≤ (c.extend s.straight).rest.length + 1 := by simp [Cursor.extend]
  have le₃ : (c.extend s.straight).rest.length + 1 ≤ (c.extend s.broken).rest.length + 1 := by
    simp [Cursor.extend, Seam.straight, Seam.broken]
  intro a d run ended
  have meets := h.iterateFor_meets le₂ le₃ e c fits filled a d run ended
  exact ⟨meets.tested, meets.caught, meets.passed, meets.parted⟩

theorem Loop.extends (h : Loop s tests round) {Z : Tail} (e : Expr) : Extends Z (iterate round e) :=
  Grows.iterate (fun _ => false) (h.grows Z) (.inr (.inr fun _ => rfl)) e

theorem Bridges.loop {p : Parser Expr} (hp : Bridges s tests p) (grows : ∀ Z, Extends Z p) (h : Loop s tests round) :
    Bridges s tests (p >>= iterate round) :=
  hp.bind grows (fun _ _ like => agrees_iterate SameTree like h.agrees) (fun _ _ => h.iterate_meets)
    (fun e c eof nothing => iterate_done (h.ended e c eof nothing))
    (fun e c nothing free => iterate_done (h.passed e c nothing free))
    (fun e c nothing => iterate_done (h.parted e c nothing)) id

end

end Grammar

end PhaseLang
