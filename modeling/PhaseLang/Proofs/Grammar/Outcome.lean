import PhaseLang.Proofs.Grammar.Logic

/-!
# How runs of parsers end

`runs p Q E c` says how a run of `p` from `c` ends, whichever way it does: it returns what satisfies
`Q`, or it finds a violation of which `E` holds. With nothing allowed for `E` the run returns. As with
`wp`, a rule is opened step by step, and a loop by an invariant.
-/

namespace PhaseLang.Parser

variable {α β σ : Type}

def runs (p : Parser α) (Q : α → Cursor → Prop) (E : SyntaxError → Prop) (c : Cursor) : Prop :=
  match p c with
  | .ok (a, c') => Q a c'
  | .error e => E e

section
variable {p q : Parser α} {f : α → Parser β} {E : SyntaxError → Prop} {c : Cursor}

theorem runs_mono {Q R : α → Cursor → Prop} (h : runs p Q E c) (hQ : ∀ a c', Q a c' → R a c') : runs p R E c := by
  unfold runs at h ⊢
  cases run : p c with
  | error e => simpa [run] using h
  | ok r => exact hQ _ _ (by simpa [run] using h)

theorem runs_and {Q R : α → Cursor → Prop} (h : runs p Q E c) (hR : wp p R c) :
    runs p (fun a c' => Q a c' ∧ R a c') E c := by
  unfold runs at h ⊢
  cases run : p c with
  | error e => simpa [run] using h
  | ok r => exact ⟨by simpa [run] using h, hR _ _ run⟩

theorem runs_weaken {Q R : α → Cursor → Prop} {E' : SyntaxError → Prop} (h : runs p Q E c)
    (hQ : ∀ a c', Q a c' → R a c') (hE : ∀ e, E e → E' e) : runs p R E' c := by
  unfold runs at h ⊢
  cases run : p c with
  | error e => exact hE _ (by simpa [run] using h)
  | ok r => exact hQ _ _ (by simpa [run] using h)

theorem runs_of_eq {Q : α → Cursor → Prop} {a : α} {d : Cursor} (run : p c = .ok (a, d)) : runs p Q E c ↔ Q a d := by
  unfold runs
  rw [run]

theorem runs.exists_ok {Q : α → Cursor → Prop} (h : runs p Q (fun _ => False) c) : ∃ a d, p c = .ok (a, d) ∧ Q a d := by
  unfold runs at h
  cases run : p c with
  | error e => simp [run] at h
  | ok r => exact ⟨r.1, r.2, rfl, by simpa [run] using h⟩

theorem runs_eq_iff {a : α} {d : Cursor} :
    runs p (fun a' d' => a' = a ∧ d' = d) (fun _ => False) c ↔ p c = .ok (a, d) := by
  unfold runs
  cases p c with
  | error e => simp
  | ok r => simp [Prod.ext_iff]

theorem runs.exists_error (h : runs p (fun _ _ => False) E c) : ∃ e, p c = .error e ∧ E e := by
  unfold runs at h
  cases run : p c with
  | error e => exact ⟨e, rfl, by simpa [run] using h⟩
  | ok r => simp [run] at h

/-! ## Steps -/

@[simp] theorem runs_pure {Q : α → Cursor → Prop} (a : α) : runs (pure a) Q E c ↔ Q a c := Iff.rfl

@[simp] theorem runs_bind {Q : β → Cursor → Prop} :
    runs (p >>= f) Q E c ↔ runs p (fun a c' => runs (f a) Q E c') E c := by
  show (match (do let (a, s) ← p c; f a s : Except SyntaxError (β × Cursor)) with
    | .ok (b, c') => Q b c'
    | .error e => E e) ↔ _
  unfold runs
  cases p c with
  | error e => rfl
  | ok r => rfl

@[simp] theorem runs_map {g : α → β} {Q : β → Cursor → Prop} :
    runs (g <$> p) Q E c ↔ runs p (fun a c' => Q (g a) c') E c := by
  rw [← bind_pure_comp, runs_bind]
  simp only [runs_pure]

@[simp] theorem runs_seqRight {q : Parser β} {Q : β → Cursor → Prop} :
    runs (p *> q) Q E c ↔ runs p (fun _ c' => runs q Q E c') E c := by
  rw [seqRight_eq_bind]
  exact runs_bind

@[simp] theorem runs_get {Q : Cursor → Cursor → Prop} : runs get Q E c ↔ Q c c := Iff.rfl

@[simp] theorem runs_set {Q : PUnit → Cursor → Prop} (d : Cursor) : runs (set d) Q E c ↔ Q ⟨⟩ d := Iff.rfl

@[simp] theorem runs_fail {Q : α → Cursor → Prop} (problem : SyntaxProblem) :
    runs (fail problem) Q E c ↔ E ⟨c.peek.pos, problem⟩ := Iff.rfl

@[simp] theorem runs_peek {Q : Token → Cursor → Prop} : runs peek Q E c ↔ Q c.peek c := Iff.rfl

@[simp] theorem runs_peekNext {Q : Token → Cursor → Prop} : runs peekNext Q E c ↔ Q c.peekNext c := Iff.rfl

@[simp] theorem runs_previous {Q : Token → Cursor → Prop} : runs previous Q E c ↔ Q c.previous c := Iff.rfl

@[simp] theorem runs_advance {Q : Token → Cursor → Prop} : runs advance Q E c ↔ Q c.peek c.advance := Iff.rfl

@[simp] theorem runs_atKind {Q : Bool → Cursor → Prop} (kind : TokenKind) :
    runs (atKind kind) Q E c ↔ Q (c.peek.kind == kind) c := Iff.rfl

@[simp] theorem runs_newlines {Q : Unit → Cursor → Prop} : runs newlines Q E c ↔ Q () c.skipNewlines := Iff.rfl

@[simp] theorem runs_spanFrom {Q : Position → Cursor → Prop} (start : Token) :
    runs (spanFrom start) Q E c ↔ Q (start.pos.merge c.previous.pos) c := Iff.rfl

@[simp] theorem runs_node {Q : Expr → Cursor → Prop} (kind : ExprKind) (pos : Position) :
    runs (node kind pos) Q E c ↔ Q ⟨c.nextId, pos, kind⟩ { c with nextId := c.nextId + 1 } := Iff.rfl

@[simp] theorem runs_ite {Q : α → Cursor → Prop} {b : Prop} [Decidable b] :
    runs (if b then p else q) Q E c ↔ (b → runs p Q E c) ∧ (¬ b → runs q Q E c) := by
  split <;> simp [*]

@[simp] theorem runs_take {Q : Bool → Cursor → Prop} (kind : TokenKind) :
    runs (take kind) Q E c ↔ (c.peek.kind = kind → Q true c.advance) ∧ (c.peek.kind ≠ kind → Q false c) := by
  simp [take]

@[simp] theorem runs_consume {Q : Token → Cursor → Prop} (kind : TokenKind) (problem : SyntaxProblem) :
    runs (consume kind problem) Q E c ↔
      (c.peek.kind = kind → Q c.peek c.advance) ∧ (c.peek.kind ≠ kind → E ⟨c.peek.pos, problem⟩) := by
  simp [consume]

@[simp] theorem runs_expect {Q : Token → Cursor → Prop} (kind : TokenKind) (what : String) :
    runs (expect kind what) Q E c ↔
      (c.peek.kind = kind → Q c.peek c.advance) ∧ (c.peek.kind ≠ kind → E ⟨c.peek.pos, .expected what⟩) :=
  runs_consume kind _

@[simp] theorem runs_takeOnNextLine {Q : Bool → Cursor → Prop} (kind : TokenKind) :
    runs (takeOnNextLine kind) Q E c ↔
      (c.skipNewlines.peek.kind = kind → Q true c.skipNewlines.advance) ∧
      (c.skipNewlines.peek.kind ≠ kind → Q false c) := by
  simp [takeOnNextLine]

@[simp] theorem runs_continueLine {Q : Unit → Cursor → Prop} :
    runs continueLine Q E c ↔
      (c.skipNewlines.peek.kind.isContinuation = true → Q () c.skipNewlines) ∧
      (c.skipNewlines.peek.kind.isContinuation = false → Q () c) := by
  simp [continueLine]

@[simp] theorem runs_after? {Q : Option α → Cursor → Prop} (kind : TokenKind) :
    runs (after? kind p) Q E c ↔
      (c.peek.kind = kind → runs p (fun a c' => Q (some a) c') E c.advance) ∧ (c.peek.kind ≠ kind → Q none c) := by
  simp [after?]

end

/-! ## Loops -/

section
variable {E : SyntaxError → Prop} {round : σ → Parser (Round σ α)} {I : σ → Cursor → Prop} {Q : α → Cursor → Prop}

theorem runs_iterateFor_of_lt (step : ∀ s c, I s c → runs (round s) (fun r c' =>
      match r with
      | .again s' => c'.rest.length < c.rest.length ∧ I s' c'
      | .done a => Q a c') E c) :
    ∀ (rounds : Nat) (s : σ) (c : Cursor), c.rest.length < rounds → I s c → runs (iterateFor round rounds s) Q E c
  | 0, _, _, bound, _ => absurd bound (Nat.not_lt_zero _)
  | rounds + 1, s, c, bound, h => by
    unfold iterateFor
    rw [runs_bind]
    refine runs_mono (step s c h) fun r c' hr => ?_
    cases r with
    | again s' => exact runs_iterateFor_of_lt step rounds s' c' (Nat.lt_of_lt_of_le hr.1 (by omega)) hr.2
    | done a => exact hr

theorem runs_iterate_of_lt {s : σ} {c : Cursor} (start : I s c)
    (step : ∀ s c, I s c → runs (round s) (fun r c' =>
      match r with
      | .again s' => c'.rest.length < c.rest.length ∧ I s' c'
      | .done a => Q a c') E c) : runs (iterate round s) Q E c := by
  unfold iterate
  rw [runs_bind, runs_get]
  exact runs_iterateFor_of_lt step _ s c (Nat.lt_succ_self _) start

end

/-! ## Rounds

A loop whose rounds are known one by one. -/

section
variable {round : σ → Parser (Round σ α)} {c c' d : Cursor} {s s' : σ} {a : α}

theorem iterateFor_mono {n m : Nat} (le : n ≤ m) (h : iterateFor round n s c = .ok (a, d)) :
    iterateFor round m s c = .ok (a, d) := by
  induction n generalizing m s c with
  | zero => cases h
  | succ n ih =>
    cases m with
    | zero => omega
    | succ m =>
      unfold iterateFor at h ⊢
      rw [← runs_eq_iff, runs_bind] at h ⊢
      refine runs_mono h fun next c' more => ?_
      cases next with
      | done result => exact more
      | again state => exact runs_eq_iff.mpr (ih (by omega) (runs_eq_iff.mp more))

theorem iterate_done (h : round s c = .ok (.done a, d)) : iterate round s c = .ok (a, d) := by
  unfold iterate iterateFor
  rw [← runs_eq_iff, runs_bind, runs_get, runs_bind, runs_of_eq h]
  exact ⟨rfl, rfl⟩

theorem iterate_again (h : round s c = .ok (.again s', c')) (less : c'.rest.length < c.rest.length)
    (more : iterate round s' c' = .ok (a, d)) : iterate round s c = .ok (a, d) := by
  have rest : iterateFor round c.rest.length s' c' = .ok (a, d) := iterateFor_mono less more
  unfold iterate iterateFor
  rw [← runs_eq_iff, runs_bind, runs_get, runs_bind, runs_of_eq h]
  exact runs_eq_iff.mpr rest

end

end PhaseLang.Parser
