import PhaseLang.Proofs.Grammar.Bench
import PhaseLang.Proofs.Grammar.Extension

/-!
# How parsers build

`Builds` is the triple that every rule of the grammar is read through. From a bench that ends in some
pieces, a parser takes steps to a bench that ends in others, one for each thing that it returns. It
does not stall within the bound of its rules, it reads at least a token where it must, it finds
violations only at tokens that are known, and it does the same over a longer row.

How the tokens left after a run follow from those left before it is a parameter, a `Course`: it holds
of a step over a single token and of the reading of a string with embedded expressions, and it can be
composed.
-/

namespace PhaseLang

open Workpiece

variable {d : Cursor} {x : Workpiece} {K : List Workpiece} {what : String}

variable {c : Cursor} {start token : Token} {pos : Position}

/-! ## Courses -/

/-- A string with embedded expressions, read from its first fragment to its last: `E` holds of the
tokens before and after each embedded expression, and so does `W`. -/
inductive Stitched (E W : List Token → List Token → Prop) : List Token → List Token → Prop
  | last {t : Token} {ts : List Token} (kind : t.kind = .string) : Stitched E W (t :: ts) ts
  | more {t : Token} {ts us rest : List Token} (kind : t.kind = .interpolation) (embedded : E ts us)
      (way : W ts us) (tail : Stitched E W us rest) : Stitched E W (t :: ts) rest

/-- Kinds of tokens that are read one by one, wherever they stand. -/
def TokenKind.isPlain (kind : TokenKind) : Bool :=
  kind != .string && kind != .interpolation && kind != .eof

theorem TokenKind.isPlain_of_beq {found kind : TokenKind} (h : (found == kind) = true) (plain : kind.isPlain = true) :
    found.isPlain = true :=
  beq_iff_eq.mp h ▸ plain

theorem TokenKind.ne_eof {kind : TokenKind} (plain : kind.isPlain = true) : kind ≠ .eof := by
  rintro rfl
  cases plain

structure Course where
  /-- The tokens that there are. -/
  Knows : Token → Prop
  /-- What is said of the token that closes the row. -/
  Closes : Token → Prop
  closes : ∀ {t}, Closes t → t.kind = .eof ∧ Knows t
  /-- What is said of the tokens before and after an embedded expression. -/
  Embeds : List Token → List Token → Prop
  /-- What is said of the tokens before and after a run. -/
  Leads : List Token → List Token → Prop
  refl : ∀ ts, Leads ts ts
  trans : ∀ {ts us vs}, Leads ts us → Leads us vs → Leads ts vs
  plain : ∀ {t ts}, t.kind.isPlain = true → Leads (t :: ts) ts
  stitched : ∀ {ts us}, Stitched Embeds Leads ts us → Leads ts us

structure Course.Ready (C : Course) (c : Cursor) : Prop where
  eof : C.Closes c.eof
  inner : ∀ t ∈ c.rest, t.kind ≠ .eof ∧ C.Knows t
  previous : C.Knows c.previous

/-- A violation found within the bound: at a token that is known, and not for want of rounds. -/
structure Course.Fails (C : Course) (n : Nat) (c : Cursor) (e : SyntaxError) : Prop where
  known : ∃ t, C.Knows t ∧ e.pos = t.pos
  bound : e.problem = .stalled → n ≤ c.rest.length

theorem Course.Fails.behind {C : Course} {n : Nat} {e : SyntaxError} (h : C.Fails n d e)
    (le : d.rest.length ≤ c.rest.length) : C.Fails n c e :=
  ⟨h.known, fun stalled => Nat.le_trans (h.bound stalled) le⟩

theorem Course.Ready.congr {C : Course} (h : C.Ready c) (rest : d.rest = c.rest) (eof : d.eof = c.eof)
    (previous : d.previous = c.previous) : C.Ready d :=
  ⟨eof ▸ h.eof, rest ▸ h.inner, previous ▸ h.previous⟩

/-- Along any row of tokens a run reads a front part of those that are left. -/
def Course.front : Course where
  Knows _ := True
  Closes t := t.kind = .eof
  closes h := ⟨h, trivial⟩
  Embeds _ _ := True
  Leads ts us := us <:+ ts
  refl ts := List.suffix_refl ts
  trans h h' := h'.trans h
  plain _ := List.suffix_cons _ _
  stitched h := by
    induction h with
    | last => exact List.suffix_cons _ _
    | more _ _ way _ ih => exact (ih.trans way).trans (List.suffix_cons _ _)

theorem Course.front_ready (eof : c.eof.kind = .eof) (inner : ∀ t ∈ c.rest, t.kind ≠ .eof) : front.Ready c :=
  ⟨eof, fun t ht => ⟨inner t ht, trivial⟩, trivial⟩

/-! ## Cursors -/

namespace Cursor

variable {C : Course} {n m : Nat} {c c' c'' : Cursor}

theorem rest_eq (ready : C.Ready c) (kind : c.peek.kind ≠ .eof) : c.rest = c.peek :: c.advance.rest := by
  cases h : c.rest with
  | nil =>
    have : c.peek = c.eof := by simp [peek, h]
    exact absurd (this ▸ (C.closes ready.eof).1) kind
  | cons t ts => simp [peek, advance, h]

theorem knows_peek (ready : C.Ready c) : C.Knows c.peek := by
  cases h : c.rest with
  | nil => simpa [peek, h] using (C.closes ready.eof).2
  | cons t ts => simpa [peek, h] using (ready.inner t (by simp [h])).2

theorem ready_advance (ready : C.Ready c) : C.Ready c.advance := by
  cases h : c.rest with
  | nil =>
    have same : c.advance = c := by simp [advance, h]
    rwa [same]
  | cons t ts =>
    have inner := ready.inner
    rw [h] at inner
    have next : c.advance = { c with previous := t, rest := ts } := by simp [advance, h]
    rw [next]
    exact ⟨ready.eof, fun u hu => inner u (List.mem_cons_of_mem _ hu), (inner t List.mem_cons_self).2⟩

/-- How a run within the bound leads on. -/
structure From (C : Course) (n : Nat) (c c' : Cursor) : Prop where
  ready : C.Ready c'
  leads : c.rest.length < n → C.Leads c.rest c'.rest
  eof : c'.eof = c.eof
  le : c'.rest.length ≤ c.rest.length

theorem From.refl (ready : C.Ready c) : From C n c c := ⟨ready, fun _ => C.refl _, rfl, Nat.le_refl _⟩

theorem From.trans (h : From C n c c') (h' : From C m c' c'') (bound : c.rest.length < n → c'.rest.length < m) :
    From C n c c'' :=
  ⟨h'.ready, fun lt => C.trans (h.leads lt) (h'.leads (bound lt)), h'.eof.trans h.eof, Nat.le_trans h'.le h.le⟩

theorem From.congr (h : From C n c c') (rest : d.rest = c'.rest) (eof : d.eof = c'.eof)
    (previous : d.previous = c'.previous) : From C n c d :=
  ⟨h.ready.congr rest eof previous, rest ▸ h.leads, eof.trans h.eof, rest ▸ h.le⟩

theorem from_advance (ready : C.Ready c) (kind : c.peek.kind.isPlain = true) :
    From C n c c.advance ∧ c.rest.length = c.advance.rest.length + 1 := by
  have rest := rest_eq ready (TokenKind.ne_eof kind)
  have length : c.rest.length = c.advance.rest.length + 1 := by rw [rest]; rfl
  have leads : C.Leads c.rest c.advance.rest := by
    rw [rest]
    exact C.plain kind
  exact ⟨⟨ready_advance ready, fun _ => leads, advance_eof c, by omega⟩, length⟩

/-- Line breaks are read and left out. -/
theorem from_skipNewlines_go (s : List Workpiece) (d : Cursor) : ∀ (ts : List Token) (previous : Token),
    C.Ready { d with previous, rest := ts } →
    From C n { d with previous, rest := ts } (skipNewlines.go d previous ts) ∧
      Steps s { d with previous, rest := ts } s (skipNewlines.go d previous ts)
  | [], _, ready => ⟨From.refl ready, .refl⟩
  | t :: ts, previous, ready => by
    unfold skipNewlines.go
    by_cases newline : t.kind = .newline
    · rw [if_pos newline]
      have step := (from_advance (n := n) ready (by simp [peek, newline, TokenKind.isPlain])).1
      have more := from_skipNewlines_go s d ts t step.ready
      have read : Steps s { d with previous, rest := t :: ts } s { d with previous := t, rest := ts } :=
        Steps.advance (c := { d with previous, rest := t :: ts }) (List.cons_ne_nil t ts)
      exact ⟨step.trans more.1 fun lt => Nat.lt_of_le_of_lt step.le lt, read.trans more.2⟩
    · rw [if_neg newline]
      exact ⟨From.refl ready, .refl⟩

theorem from_skipNewlines (ready : C.Ready c) (s : List Workpiece) :
    From C n c c.skipNewlines ∧ Steps s c s c.skipNewlines :=
  from_skipNewlines_go s c c.rest c.previous ready

end Cursor

namespace SyntaxProblem

def stalls : SyntaxProblem → Bool
  | stalled => true
  | _ => false

theorem ne_stalled {problem : SyntaxProblem} (h : problem.stalls = false) : problem ≠ stalled := by
  rintro rfl
  exact Bool.noConfusion h

end SyntaxProblem

namespace Parser

variable {α β σ : Type}

@[simp] def Round.either {γ : Type} (again : σ → γ) (done : α → γ) : Round σ α → γ
  | .again s => again s
  | .done a => done a

theorem runs_loop {round : σ → Parser (Round σ α)} {I : σ → Cursor → Prop} {Q : α → Cursor → Prop}
    {E : SyntaxError → Prop} {state : σ} (start : I state c) (step : ∀ state c, I state c →
      runs (round state) (fun r c' => r.either (fun next => c'.rest.length < c.rest.length ∧ I next c') (Q · c')) E c) :
    runs (iterate round state) Q E c :=
  runs_iterate_of_lt start fun state c h => runs_mono (step state c h) fun r _ hr => by cases r <;> exact hr

/-! ## The triple -/

/-- What a run from `c` to `c'` has done: it has taken steps from one bench to another, on top of what
was there before, and read a token if it must. -/
structure Lays (C : Course) (n : Nat) (M : Bool) (s ks js : List Workpiece) (c c' : Cursor) : Prop where
  way : Cursor.From C n c c'
  moved : M = true → c'.rest.length < c.rest.length
  steps : Steps (s ++ ks) c (s ++ js) c'

/-- From a cursor of which `H` holds and a bench that ends in `ks`, `p` returns an `a` of which `P`
holds and leaves a bench that ends in `A a`. -/
structure BuildsIf (C : Course) (H : Cursor → Prop) (M : α → Bool) (n : Nat) (ks : List Workpiece) (p : Parser α)
    (P : α → Prop) (A : α → List Workpiece) : Prop where
  lays : ∀ s c, C.Ready c → H c → runs p (fun a c' => Lays C n (M a) s ks (A a) c c' ∧ P a) (C.Fails n c) c
  grows : ∀ Z c, C.Ready c → Z.Fits c → H c → ExtendsAt Z p c

abbrev Builds (C : Course) (M : α → Bool) (n : Nat) (ks : List Workpiece) (p : Parser α) (P : α → Prop)
    (A : α → List Workpiece) : Prop := BuildsIf C (fun _ => True) M n ks p P A

/-- A run reads a token. -/
abbrev Strides (C : Course) (n : Nat) (ks : List Workpiece) (p : Parser α) (A : α → List Workpiece) : Prop :=
  Builds C (fun _ => true) n ks p (fun _ => True) A

/-- A run may read nothing. -/
abbrev Proceeds (C : Course) (n : Nat) (ks : List Workpiece) (p : Parser α) (A : α → List Workpiece) : Prop :=
  Builds C (fun _ => false) n ks p (fun _ => True) A

/-- An expression that the rule of a tier can give. -/
abbrev StridesAt (C : Course) (n tier : Nat) (p : Parser Expr) : Prop :=
  Builds C (fun _ => true) n [] p (·.StandsAt tier) fun e => [.expr e]

abbrev Passes (C : Course) (n : Nat) (p : Parser α) : Prop := Strides C n [] p fun _ => []

section
variable {C : Course} {H H' : Cursor → Prop} {M must₁ : α → Bool} {M' : β → Bool} {n m : Nat}
variable {ks js : List Workpiece} {p q : Parser α} {f : α → Parser β} {a : α} {b : Prop}
variable {A A' : α → List Workpiece} {B : β → List Workpiece} {P P' : α → Prop} {Q : β → Prop}

theorem BuildsIf.when (h : BuildsIf C H' M n ks p P A) (hH : ∀ c, H c → H' c) : BuildsIf C H M n ks p P A :=
  ⟨fun s c ready hc => h.lays s c ready (hH c hc), fun Z c ready fits hc => h.grows Z c ready fits (hH c hc)⟩

theorem BuildsIf.extend {Z : Tail} (h : Builds .front M n ks p P A) : Extends Z p :=
  fun c fits => h.grows Z c (Course.front_ready fits.eof fits.only) fits trivial

theorem BuildsIf.any (h : Builds C M n ks p P A) : BuildsIf C H M n ks p P A :=
  BuildsIf.when h fun _ _ => trivial

theorem BuildsIf.mono (h : BuildsIf C H M n ks p P A) (hP : ∀ a, P a → P' a)
    (hm : ∀ a, must₁ a = true → M a = true) : BuildsIf C H must₁ n ks p P' A :=
  ⟨fun s c ready hc => runs_mono (h.lays s c ready hc) fun a _ ha =>
    ⟨⟨ha.1.way, fun hb => ha.1.moved (hm a hb), ha.1.steps⟩, hP a ha.2⟩, h.grows⟩

theorem BuildsIf.plain (h : BuildsIf C H M n ks p P A) : BuildsIf C H M n ks p (fun _ => True) A :=
  h.mono (fun _ _ => trivial) fun _ => id

theorem BuildsIf.loosen (h : BuildsIf C H M n ks p P A) : BuildsIf C H (fun _ => false) n ks p P A :=
  h.mono (fun _ => id) fun _ hb => absurd hb Bool.false_ne_true

theorem BuildsIf.frame (h : BuildsIf C H M n ks p P A) (js : List Workpiece) :
    BuildsIf C H M n (js ++ ks) p P fun a => js ++ A a := by
  refine ⟨fun s c ready hc => runs_mono (h.lays (s ++ js) c ready hc) fun a c' ha => ?_, h.grows⟩
  exact ⟨⟨ha.1.way, ha.1.moved, by simpa using ha.1.steps⟩, ha.2⟩

theorem BuildsIf.cast (h : BuildsIf C H M n ks p P A) (same : ∀ a, A a = A' a) : BuildsIf C H M n ks p P A' :=
  funext same ▸ h

/-- Everything but code may be left out after a run. -/
theorem BuildsIf.cleared (h : BuildsIf C H M n ks p P A) (same : ∀ a, codes (A a) = A' a) :
    BuildsIf C H M n ks p P A' := by
  refine ⟨fun s c ready hc => runs_mono (h.lays s c ready hc) fun a c' ha => ?_, h.grows⟩
  exact ⟨⟨ha.1.way, ha.1.moved, ha.1.steps.trans (same a ▸ Steps.clear)⟩, ha.2⟩

theorem BuildsIf.of_eq (h : BuildsIf C H M n js p P A) (same : ks = js) : BuildsIf C H M n ks p P A := same ▸ h

theorem BuildsIf.of_le (h : BuildsIf C H M m ks p P A) (le : n ≤ m) : BuildsIf C H M n ks p P A := by
  refine ⟨fun s c ready hc => ?_, h.grows⟩
  have run := h.lays s c ready hc
  unfold runs at run ⊢
  split at run
  · exact ⟨⟨⟨run.1.way.ready, fun lt => run.1.way.leads (by omega), run.1.way.eof, run.1.way.le⟩,
      run.1.moved, run.1.steps⟩, run.2⟩
  · exact ⟨run.known, fun stalled => Nat.le_trans le (run.bound stalled)⟩

theorem BuildsIf.lower (h : BuildsIf C H M (n + 1) ks p P A) : BuildsIf C H M n ks p P A := h.of_le (Nat.le_succ n)

/-- Steps may be taken before a run. -/
theorem BuildsIf.after (h : BuildsIf C H M n js p P A) (steps : ∀ s c, H c → Steps (s ++ ks) c (s ++ js) c) :
    BuildsIf C H M n ks p P A := by
  refine ⟨fun s c ready hc => runs_mono (h.lays s c ready hc) fun a c' ha => ?_, h.grows⟩
  exact ⟨⟨ha.1.way, ha.1.moved, (steps s c hc).trans ha.1.steps⟩, ha.2⟩

theorem BuildsIf.laying (h : BuildsIf C H M n (ks ++ [x]) p P A)
    (step : ∀ s c, H c → Step (s ++ ks) c (s ++ ks ++ [x]) c) : BuildsIf C H M n ks p P A :=
  h.after fun s c hc => List.append_assoc s ks [x] ▸ .single (step s c hc)

/-- What is no code may be left out before a run. -/
theorem BuildsIf.besides (h : BuildsIf C H M n ks p P A) (none : codes js = []) :
    BuildsIf C H M n (ks ++ js) p P A :=
  h.after fun s c _ => by
    have clear : Steps (s ++ ks ++ js) c (s ++ ks ++ codes js) c := .clear
    simpa [none] using clear

theorem BuildsIf.alone (h : BuildsIf C H M n [] p P A) (none : codes js = []) : BuildsIf C H M n js p P A :=
  BuildsIf.besides h none

/-- A run and what comes after it. What comes after may be bound one level lower behind a token, and
need not read another. -/
theorem BuildsIf.bindAt {k : α → Nat} {l : α → β → Bool} (h : BuildsIf C H M n ks p P A)
    (hf : ∀ a, P a → Builds C (l a) (k a) (A a) (f a) Q B) (level : ∀ a, n ≤ k a + (M a).toNat)
    (moved : ∀ a b, M' b = true → M a = true ∨ l a b = true) : BuildsIf C H M' n ks (p >>= f) Q B := by
  refine ⟨fun s c ready hc => runs_bind.mpr (runs_mono (h.lays s c ready hc) fun a c' ha => ?_),
    fun Z c ready fits hc => (h.grows Z c ready fits hc).next fits fun a d run fits' => ?_⟩
  case refine_2 =>
    have laid := (runs_of_eq run).mp (h.lays [] c ready hc)
    exact (hf a laid.2).grows Z d laid.1.way.ready fits' trivial
  have le := ha.1.way.le
  have bound : k a ≤ c'.rest.length → n ≤ c.rest.length := by
    have lower := level a
    cases step : M a with
    | false =>
      rw [step, Bool.toNat_false] at lower
      omega
    | true =>
      have := ha.1.moved step
      rw [step, Bool.toNat_true] at lower
      omega
  have run := (hf a ha.2).lays s c' ha.1.way.ready trivial
  unfold runs at run ⊢
  split at run
  · refine ⟨⟨ha.1.way.trans run.1.way (by omega), fun hb => ?_, ha.1.steps.trans run.1.steps⟩, run.2⟩
    rcases moved a _ hb with step | step
    · exact Nat.lt_of_le_of_lt run.1.way.le (ha.1.moved step)
    · exact Nat.lt_of_lt_of_le (run.1.moved step) le
  · exact ⟨run.known, fun stalled => bound (run.bound stalled)⟩

theorem BuildsIf.bind (h : BuildsIf C H M n ks p P A) (hf : ∀ a, P a → Builds C M' n (A a) (f a) Q B) :
    BuildsIf C H M' n ks (p >>= f) Q B :=
  h.bindAt hf (fun _ => Nat.le_add_right _ _) fun _ _ => .inr

theorem BuildsIf.andThen (h : BuildsIf C H M n [] p P A)
    (hf : ∀ a, P a → Builds C M' n (ks ++ A a) (f a) Q B) : BuildsIf C H M' n ks (p >>= f) Q B := by
  have framed := h.frame ks
  rw [List.append_nil] at framed
  exact framed.bind hf

/-- After a step that reads a token nothing more is asked, and the rules may be one level lower. -/
theorem BuildsIf.entering (h : BuildsIf C H (fun _ => true) (n + 1) [] p P A)
    (hf : ∀ a, P a → Builds C (fun _ => false) n (K ++ A a) (f a) Q B) : BuildsIf C H M' (n + 1) K (p >>= f) Q B := by
  have framed := h.frame K
  rw [List.append_nil] at framed
  exact framed.bindAt hf (fun _ => Nat.le_refl _) fun _ _ _ => .inl rfl

theorem BuildsIf.readingOn (h : BuildsIf C H (fun _ => true) n ks p P A)
    (hf : ∀ a, P a → Builds C (fun _ => false) n (A a) (f a) Q B) : BuildsIf C H M' n ks (p >>= f) Q B :=
  h.bindAt hf (fun _ => Nat.le_add_right _ _) fun _ _ _ => .inl rfl

theorem BuildsIf.reading (h : BuildsIf C H (fun _ => true) n [] p P A)
    (hf : ∀ a, P a → Builds C (fun _ => false) n (ks ++ A a) (f a) Q B) : BuildsIf C H M' n ks (p >>= f) Q B := by
  have framed := h.frame ks
  rw [List.append_nil] at framed
  exact framed.readingOn hf

/-- Everything stays at hand. -/
theorem builds_done (same : ks = A a) (hP : P a) (hm : M a = false) : BuildsIf C H M n ks (pure a) P A := by
  refine ⟨fun s c ready _ => ?_, fun _ c _ fits _ => grows_pure c fits⟩
  exact ⟨⟨.refl ready, fun h => absurd (hm.symm.trans h) Bool.false_ne_true, same ▸ .refl⟩, hP⟩

/-- Only code stays at hand. -/
theorem builds_pure (parts : codes ks = A a) (hP : P a) (hm : M a = false) : BuildsIf C H M n ks (pure a) P A :=
  BuildsIf.after (builds_done rfl hP hm) fun _ _ _ => parts ▸ Steps.clear

theorem builds_pure_bind (h : BuildsIf C H M' n ks (f a) Q B) : BuildsIf C H M' n ks (pure a >>= f) Q B := by
  rwa [pure_bind]

theorem builds_ite [Decidable b] (hp : b → BuildsIf C H M n ks p P A) (hq : ¬ b → BuildsIf C H M n ks q P A) :
    BuildsIf C H M n ks (if b then p else q) P A := by
  split
  · exact hp ‹_›
  · exact hq ‹_›

theorem builds_joined [Decidable b] (hp : b → BuildsIf C H M n [] p P A) (hq : ¬ b → BuildsIf C H M n [] q P A)
    (hf : ∀ a, P a → Builds C M' n (ks ++ A a) (f a) Q B) :
    BuildsIf C H M' n ks (if b then p >>= f else q >>= f) Q B :=
  builds_ite (fun h => (hp h).andThen hf) fun h => (hq h).andThen hf

theorem builds_optional [Decidable b] {q : Parser β} (hp : BuildsIf C H M n [] p P A) (none : ∀ a, codes (A a) = [])
    (hq : Builds C M' n ks q Q B) : BuildsIf C H M' n ks (if b then p >>= fun _ => q else q) Q B :=
  builds_ite (fun _ => hp.andThen fun a _ => BuildsIf.besides hq (none a)) fun _ => BuildsIf.any hq

variable {problem : SyntaxProblem} {token : Token}

theorem builds_failAt (known : C.Knows token) (h : problem.stalls = false) :
    BuildsIf C H M n ks (failAt token problem) P A :=
  ⟨fun _ _ _ _ => ⟨⟨token, known, rfl⟩, fun stalled => absurd stalled (SyntaxProblem.ne_stalled h)⟩,
    fun _ c _ fits _ => tight_failAt.grows c fits⟩

theorem builds_fail (h : problem.stalls = false) : BuildsIf C H M n ks (fail problem) P A :=
  ⟨fun _ c ready _ =>
    ⟨⟨c.peek, Cursor.knows_peek ready, rfl⟩, fun stalled => absurd stalled (SyntaxProblem.ne_stalled h)⟩,
    fun _ c _ fits _ => tight_fail.grows c fits⟩

theorem builds_failAt_bind (known : C.Knows token) (h : problem.stalls = false) :
    BuildsIf C H M' n ks (failAt token problem >>= f) Q B :=
  builds_failAt known h

theorem builds_fail_bind (h : problem.stalls = false) : BuildsIf C H M' n ks (fail problem >>= f) Q B :=
  builds_fail h

/-- A look at the cursor that sees the same over a longer row. -/
theorem builds_look {g : Cursor → α} (run : ∀ c, p c = .ok (g c, c))
    (same : ∀ (Z : Tail) c, Z.Fits c → c.rest ≠ [] → f (g (c.extend Z)) = f (g c))
    (hf : ∀ c, C.Ready c → H c → BuildsIf C (fun d => H d ∧ g d = g c) M' n ks (f (g c)) Q B) :
    BuildsIf C H M' n ks (p >>= f) Q B where
  lays s c ready hc := by
    rw [runs_bind, runs_of_eq (run c)]
    exact (hf c ready hc).lays s c ready ⟨hc, rfl⟩
  grows Z c ready fits hc := .look run ((hf c ready hc).grows Z c ready fits ⟨hc, rfl⟩)
    fun _ reached => same Z c fits (reached.resolve_left Bool.false_ne_true)

/-- A step that changes the cursor where it stands. -/
theorem builds_change {q : Parser β} {f : Cursor → Parser β} {g : Cursor → Cursor} {G : Cursor → List Workpiece}
    (run : ∀ c, q c = f c (g c)) (stable : ∀ (Z : Tail) c, f (c.extend Z) = f c ∧ g (c.extend Z) = (g c).extend Z)
    (same : ∀ c, (g c).rest = c.rest ∧ (g c).eof = c.eof ∧ (g c).previous = c.previous)
    (steps : ∀ s c, Steps (s ++ ks) c (s ++ G c) (g c)) (hf : ∀ c, Builds C M' n (G c) (f c) Q B) :
    BuildsIf C H M' n ks q Q B where
  lays s c ready _ := by
    obtain ⟨rest, eof, previous⟩ := same c
    have way : Cursor.From C n c (g c) := (Cursor.From.refl ready).congr rest eof previous
    have length : (g c).rest.length = c.rest.length := by rw [rest]
    unfold runs
    rw [run c]
    refine runs_weaken ((hf c).lays s (g c) way.ready trivial) (fun b d hb => ?_) fun e he => he.behind way.le
    exact ⟨⟨way.trans hb.1.way (by omega), fun h => length ▸ hb.1.moved h, (steps s c).trans hb.1.steps⟩, hb.2⟩
  grows Z c ready fits _ b d read := by
    obtain ⟨rest, eof, previous⟩ := same c
    rw [run] at read
    have step :=
      (hf c).grows Z (g c) (ready.congr rest eof previous) (fits.step (rest ▸ List.suffix_rfl) eof) trivial b d read
    refine ⟨rest ▸ step.suffix, step.eof.trans eof, fun reached => ?_, Bool.noConfusion⟩
    rw [run, (stable Z c).1, (stable Z c).2]
    exact step.same reached

theorem builds_ids {k : Nat} {f : Cursor → Parser β} {G : Cursor → List Workpiece}
    (same : ∀ (Z : Tail) c, f (c.extend Z) = f c)
    (steps : ∀ s c, Steps (s ++ ks) c (s ++ G c) { c with nextId := c.nextId + k })
    (hf : ∀ c, Builds C M' n (G c) (f c) Q B) : BuildsIf C H M' n ks (do
      let c ← get
      set { c with nextId := c.nextId + k }
      f c) Q B :=
  builds_change (f := f) (fun _ => rfl) (fun Z c => ⟨same Z c, rfl⟩) (fun _ => ⟨rfl, rfl, rfl⟩) steps hf

end

variable {kind : TokenKind} {problem : SyntaxProblem}

section
variable {C : Course} {H : Cursor → Prop} {M : β → Bool} {n : Nat} {ks : List Workpiece}
variable {B : β → List Workpiece} {Q : β → Prop}

/-! ## Looking ahead and back -/

theorem builds_peek {f : Token → Parser β}
    (hf : ∀ t, C.Knows t → BuildsIf C (fun c => H c ∧ c.peek = t) M n ks (f t) Q B) :
    BuildsIf C H M n ks (peek >>= f) Q B :=
  builds_look (fun _ => rfl) (fun _ _ _ more => by rw [Cursor.peek_extend more]) fun c ready _ =>
    hf c.peek (Cursor.knows_peek ready)

/-- Of the token behind the next only some kinds matter. -/
theorem builds_peekNext {f : Token → Parser β} (kinds : List TokenKind) (inner : kinds.all TokenKind.isInner = true)
    (same : ∀ t u : Token, (∀ kind ∈ kinds, (u.kind == kind) = (t.kind == kind)) → f u = f t)
    (hf : ∀ t, BuildsIf C (fun c => H c ∧ c.peekNext = t) M n ks (f t) Q B) :
    BuildsIf C H M n ks (peekNext >>= f) Q B := by
  refine builds_look (fun _ => rfl) (fun Z c fits more => same _ _ fun kind mem => ?_) fun c _ _ => hf c.peekNext
  rw [Bool.eq_iff_iff, beq_iff_eq, beq_iff_eq]
  exact Cursor.peekNext_extend_kind fits (List.all_eq_true.mp inner kind mem) more

theorem builds_atEnd {f : Bool → Parser β} (hf : ∀ b, BuildsIf C H M n ks (f b) Q B) :
    BuildsIf C H M n ks (atEnd >>= f) Q B :=
  builds_look (g := fun c => c.peek.kind == .eof) (fun _ => rfl) (fun _ _ _ more => by rw [Cursor.peek_extend more])
    fun _ _ _ => BuildsIf.when (hf _) fun _ h => h.1

theorem builds_atKind {f : Bool → Parser β}
    (hf : ∀ b, BuildsIf C (fun c => H c ∧ (c.peek.kind == kind) = b) M n ks (f b) Q B) :
    BuildsIf C H M n ks (atKind kind >>= f) Q B :=
  builds_look (g := fun c => c.peek.kind == kind) (fun _ => rfl) (fun _ _ _ more => by rw [Cursor.peek_extend more])
    fun _ _ _ => hf _

theorem builds_get {f : Cursor → Parser β} (same : ∀ c (Z : Tail), f (c.extend Z) = f c)
    (hf : ∀ c, H c → BuildsIf C (fun d => H d ∧ d = c) M n ks (f c) Q B) : BuildsIf C H M n ks (get >>= f) Q B :=
  builds_look (g := id) (fun _ => rfl) (fun Z c _ _ => same c Z) fun c _ => hf c

/-- The token read last, and where it stands. -/
theorem builds_previous {f : Token → Parser β}
    (hf : ∀ t, C.Knows t → BuildsIf C H M n (ks ++ [.place t.pos]) (f t) Q B) :
    BuildsIf C H M n ks (previous >>= f) Q B := by
  refine builds_look (g := Cursor.previous) (fun _ => rfl) (fun _ _ _ _ => rfl) fun c ready _ => ?_
  exact BuildsIf.laying (BuildsIf.when (hf c.previous ready.previous) fun _ h => h.1) fun _ d hd => hd.2 ▸ .previous

/-- The token read last, which is on the bench. -/
theorem builds_keyword {f : Token → Parser β} {keyword : Token} (known : ∀ c, H c → c.previous = keyword)
    (hf : BuildsIf C H M n ks (f keyword) Q B) : BuildsIf C H M n ks (previous >>= f) Q B := by
  refine builds_look (g := Cursor.previous) (fun _ => rfl) (fun _ _ _ _ => rfl) fun c _ hc => ?_
  rw [known c hc]
  exact BuildsIf.when hf fun _ h => h.1

theorem builds_spanFrom {f : Position → Parser β} (place : start.pos ∈ origins ks)
    (hf : ∀ pos, pos.start = start.pos.start → BuildsIf C H M n (ks ++ [.place pos]) (f pos) Q B) :
    BuildsIf C H M n ks (spanFrom start >>= f) Q B := by
  refine builds_look (g := fun c => start.pos.merge c.previous.pos) (fun _ => rfl) (fun _ _ _ _ => rfl)
    fun c ready _ => ?_
  exact BuildsIf.laying (BuildsIf.when (hf _ rfl) fun _ h => h.1) fun _ d hd => hd.2 ▸ .span (by simp [place])

/-- The token that comes next, if a run that reads one comes next. -/
theorem BuildsIf.starting {p : Parser α} {f : α → Parser β} {A : α → List Workpiece} {P : α → Prop}
    (at_ : ∀ c, H c → c.peek = start) (h : BuildsIf C H (fun _ => true) n [] p P A)
    (hf : ∀ a, P a → Builds C (fun _ => false) n (ks ++ [.behind start.pos] ++ A a) (f a) Q B) :
    BuildsIf C H M n ks (p >>= f) Q B := by
  have settled : BuildsIf C H (fun _ => true) n ks p P fun a => ks ++ [.behind start.pos] ++ A a := by
    refine ⟨fun s c ready hc => ?_, h.grows⟩
    refine runs_mono (h.lays (s ++ ks ++ [.ahead c.peek c.rest.length]) c ready hc) fun a c' ha => ?_
    refine ⟨⟨ha.1.way, ha.1.moved, (Steps.single .ahead).trans ?_⟩, ha.2⟩
    rw [← at_ c hc]
    have settle : Step (s ++ ks ++ .ahead c.peek c.rest.length :: A a) c' (s ++ ks ++ .behind c.peek.pos :: A a) c' :=
      .settle (ha.1.moved rfl)
    have run :
        Steps (s ++ ks ++ [.ahead c.peek c.rest.length]) c (s ++ ks ++ .ahead c.peek c.rest.length :: A a) c' := by
      simpa using ha.1.steps
    simpa using run.tail settle
  exact settled.readingOn hf

/-- The token that comes next is at hand once one is read. -/
theorem BuildsIf.ahead {p : Parser β} (at_ : ∀ c, H c → c.peek = start)
    (hp : ∀ left, BuildsIf C H M n (ks ++ [.ahead start left]) p Q B) : BuildsIf C H M n ks p Q B := by
  refine ⟨fun s c ready hc => runs_mono ((hp c.rest.length).lays s c ready hc) fun a c' ha => ?_, (hp 0).grows⟩
  have look : Step (s ++ ks) c (s ++ ks ++ [.ahead start c.rest.length]) c := at_ c hc ▸ .ahead
  exact ⟨⟨ha.1.way, ha.1.moved, (Steps.single look).trans (by simpa using ha.1.steps)⟩, ha.2⟩

/-! ## Single tokens -/

/-- A token that is read, where one is known to come. -/
theorem builds_advance (plain : ∀ c, H c → c.peek.kind.isPlain = true) :
    BuildsIf C H (fun _ => true) n [] advance (fun t => C.Knows t) fun t => [.token t] := by
  refine ⟨fun s c ready hc => ?_, fun _ c _ fits _ => extends_advance c fits⟩
  rw [runs_advance]
  obtain ⟨step, length⟩ := Cursor.from_advance ready (plain c hc)
  have more : c.rest ≠ [] := fun none => by simp [none] at length
  exact ⟨⟨step, fun _ => by omega, by simpa using .single (.read more)⟩, Cursor.knows_peek ready⟩

/-- What comes behind a token that is read. -/
theorem lays_behind {H' : Cursor → Prop} {q : Parser β} {s js : List Workpiece} {k : Nat}
    (h : BuildsIf C H' (fun _ => false) k js q Q B) (hc : H' c.advance) (ready : C.Ready c)
    (plain : c.peek.kind.isPlain = true) (level : n ≤ k + 1)
    (steps : c.rest ≠ [] → Steps (s ++ ks) c (s ++ js) c.advance) :
    runs q (fun b c' => Lays C n (M b) s ks (B b) c c' ∧ Q b) (C.Fails n c) c.advance := by
  obtain ⟨step, length⟩ := Cursor.from_advance (n := n) ready plain
  have more : c.rest ≠ [] := fun none => by simp [none] at length
  have run := h.lays s c.advance step.ready hc
  unfold runs at run ⊢
  split at run
  · have le := run.1.way.le
    exact ⟨⟨step.trans run.1.way (by omega), fun _ => by omega, (steps more).trans run.1.steps⟩, run.2⟩
  · exact ⟨run.known, fun stalled => by have := run.bound stalled; omega⟩

theorem builds_read {f : Token → Parser β} {k : Nat} (plain : ∀ c, H c → c.peek.kind.isPlain = true) (level : n ≤ k + 1)
    (hf : ∀ c, H c → c.rest = c.peek :: c.advance.rest → ∃ js, (∀ s, Steps (s ++ ks) c (s ++ js) c.advance) ∧
      BuildsIf C (fun d => d = c.advance) (fun _ => false) k js (f c.peek) Q B) : BuildsIf C H M n ks
      (advance >>= f) Q B where
  lays s c ready hc := by
    obtain ⟨js, steps, built⟩ := hf c hc (Cursor.rest_eq ready (TokenKind.ne_eof (plain c hc)))
    rw [runs_bind, runs_advance]
    exact lays_behind built rfl ready (plain c hc) level fun _ => steps s
  grows Z c ready fits hc := (extends_advance c fits).next fits fun a d run fits' => by
    cases run
    obtain ⟨js, -, built⟩ := hf c hc (Cursor.rest_eq ready (TokenKind.ne_eof (plain c hc)))
    exact built.grows Z _ (Cursor.ready_advance ready) fits' rfl

theorem builds_token {f : Token → Parser β} {k : Nat} (at_ : ∀ c, H c → c.peek = token)
    (plain : token.kind.isPlain = true) (level : n ≤ k + 1)
    (hf : BuildsIf C (fun c => c.previous = token) (fun _ => false) k (ks ++ [.token token]) (f token) Q B) :
    BuildsIf C H M n ks (advance >>= f) Q B := by
  refine builds_read (fun c hc => at_ c hc ▸ plain) level fun c hc rest => ⟨ks ++ [.token token], fun s => ?_, ?_⟩
  · rw [← List.append_assoc, ← at_ c hc]
    exact .single (.read (by simp [rest]))
  · rw [at_ c hc]
    refine BuildsIf.when hf fun d hd => ?_
    rw [hd, Cursor.advance, rest, at_ c hc]

/-- Whether the cursor is in a namespace where a token is read. -/
theorem builds_tokenWithin {f : Token → Parser β} {k : Nat} (at_ : ∀ c, H c → c.peek = token)
    (plain : token.kind.isPlain = true) (level : n ≤ k + 1)
    (hf : ∀ b, BuildsIf C (fun c => c.inNamespace = b) (fun _ => false) k (ks ++ [.token token, .within b])
      (f token) Q B) :
    BuildsIf C H M n ks (advance >>= f) Q B := by
  refine builds_read (fun c hc => at_ c hc ▸ plain) level fun c hc rest =>
    ⟨ks ++ [.token token, .within c.inNamespace], fun s => ?_, ?_⟩
  · rw [← List.append_assoc, ← at_ c hc]
    exact .single (.within (by simp [rest]))
  · rw [at_ c hc]
    refine BuildsIf.when (hf c.inNamespace) fun d hd => ?_
    rw [hd, Cursor.advance, rest]

theorem builds_newlines : BuildsIf C H (fun _ => false) n [] newlines (fun _ => True) fun _ => [] := by
  refine ⟨fun s c ready _ => ?_, fun _ c _ fits _ => extends_newlines c fits⟩
  have skipped := Cursor.from_skipNewlines (n := n) ready (s ++ [])
  exact ⟨⟨skipped.1, fun h => absurd h Bool.false_ne_true, skipped.2⟩, trivial⟩

theorem builds_consume (plain : kind.isPlain = true) (h : problem.stalls = false) :
    BuildsIf C H (fun _ => true) n [] (consume kind problem) (fun t => C.Knows t ∧ t.kind = kind)
      fun t => [.token t] := by
  refine ⟨fun s c ready _ => ?_, fun _ => fun c _ fits _ =>
    (extends_atKind.next fun _ => .ite extends_advance tight_fail.grows) c fits⟩
  rw [runs_consume]
  refine ⟨fun found => ?_, fun _ => ⟨⟨c.peek, Cursor.knows_peek ready, rfl⟩, fun stalled => ?_⟩⟩
  · have run := (builds_advance (H := fun d => d = c) (n := n) fun d hd => by rw [hd, found, plain]).lays s c ready rfl
    rw [runs_advance] at run
    exact ⟨run.1, run.2, found⟩
  · exact absurd stalled (SyntaxProblem.ne_stalled h)

theorem builds_expect (plain : kind.isPlain = true) :
    BuildsIf C H (fun _ => true) n [] (expect kind what) (fun t => C.Knows t ∧ t.kind = kind) fun t => [.token t] :=
  builds_consume plain rfl

theorem builds_advance_advance {f : Token → Parser β}
    (plain : ∀ c, H c → c.peek.kind.isPlain = true ∧ c.peekNext.kind.isPlain = true)
    (hf : ∀ t, Builds C (fun _ => false) n ks (f t) Q B) :
    BuildsIf C H M n ks (advance >>= fun t => advance >>= fun _ => f t) Q B := by
  refine builds_read (fun c hc => (plain c hc).1) (Nat.le_succ n) fun c hc rest =>
    ⟨ks, fun s => .advance (by simp [rest]), ?_⟩
  have next : c.advance.peek = c.peekNext := by
    show c.advance.rest.headD c.advance.eof = (c.rest.drop 1).headD c.eof
    rw [rest, Cursor.advance_eof]
    rfl
  exact builds_token (fun d hd => hd ▸ next) (plain c hc).2 (Nat.le_succ n) (BuildsIf.besides (hf _).any rfl)

theorem builds_advance_or_fail {f : Token → Parser β}
    (plain : ∀ t, C.Knows t → t.kind.isPlain = true → Builds C (fun _ => false) n (ks ++ [.token t]) (f t) Q B)
    (other : ∀ t, t.kind.isPlain = false → ∃ problem, problem.stalls = false ∧ f t = failAt t problem) :
    BuildsIf C H M (n + 1) ks (advance >>= f) Q B := by
  have token (c : Cursor) (ready : C.Ready c) : BuildsIf C (fun d => d = c) M (n + 1) ks (advance >>= f) Q B := by
    by_cases h : c.peek.kind.isPlain = true
    · exact builds_token (fun d hd => hd ▸ rfl) h (Nat.le_refl _) (plain _ (Cursor.knows_peek ready) h).any
    · obtain ⟨problem, goes, fails⟩ := other c.peek (Bool.eq_false_iff.mpr h)
      refine ⟨fun s d _ hd => ?_, fun Z d _ fits hd => (extends_advance d fits).next fits fun t d' run fits' => ?_⟩
      · rw [hd, runs_bind, runs_advance, fails]
        exact ⟨⟨c.peek, Cursor.knows_peek ready, rfl⟩, fun stalled => absurd stalled (SyntaxProblem.ne_stalled goes)⟩
      · cases run
        rw [hd, fails]
        exact tight_failAt.grows _ (hd ▸ fits')
  exact ⟨fun s c ready _ => (token c ready).lays s c ready rfl, fun Z c ready fits _ =>
    (token c ready).grows Z c ready fits rfl⟩

/-- The first token read since `start` was ahead. -/
theorem builds_expectBehind {f : Token → Parser β} {left : Nat} {J : List Workpiece}
    (plain : kind.isPlain = true)
    (hf : ∀ t, Builds C (fun _ => false) n (K ++ .behind start.pos :: J ++ [.token t]) (f t) Q B) :
    BuildsIf C H M n (K ++ .ahead start left :: J) (expect kind what >>= f) Q B := by
  refine ⟨fun s c ready _ => ?_,
    (BuildsIf.reading (builds_expect plain) fun t _ => hf t : BuildsIf C H M n _ _ Q B).grows⟩
  rw [runs_bind, runs_expect]
  refine ⟨fun found => ?_, fun _ => ⟨⟨c.peek, Cursor.knows_peek ready, rfl⟩, fun stalled => by cases stalled⟩⟩
  refine lays_behind (hf c.peek) trivial ready (found ▸ plain) (Nat.le_succ n) fun more => ?_
  simpa using Steps.single (.readBehind (s := s ++ K) (r := J) more)

theorem builds_take (plain : kind.isPlain = true) :
    BuildsIf C H id n [] (take kind) (fun _ => True) fun _ => [] := by
  refine builds_atKind fun b => builds_ite (fun hb => ?_) fun _ => builds_pure rfl trivial rfl
  refine BuildsIf.reading (builds_advance fun c hc => ?_) fun _ _ => builds_pure rfl trivial rfl
  exact TokenKind.isPlain_of_beq (hc.2.trans hb) plain

/-- A token that is read if it is of the kind, and known beforehand. -/
theorem builds_takeAt {f : Bool → Parser β} (at_ : ∀ c, H c → c.peek = token)
    (plain : kind.isPlain = true) (yes : Builds C (fun _ => false) n (ks ++ [.behind token.pos]) (f true) Q B)
    (no : BuildsIf C H M n ks (f false) Q B) : BuildsIf C H M n ks (take kind >>= f) Q B := by
  refine ⟨fun s c ready hc => ?_, fun Z c ready fits hc => ?_⟩
  case refine_2 =>
    refine ((builds_take (n := n) plain).grows Z c ready fits hc).next fits fun b d run fits' => ?_
    have after : wp (take kind) (fun b d => b = true ∧ d = c.advance ∨ b = false ∧ d = c) c := by simp
    obtain ⟨rfl, rfl⟩ | ⟨rfl, rfl⟩ := after b d run
    · exact yes.grows Z _ (Cursor.ready_advance ready) fits' trivial
    · exact no.grows Z _ ready fits hc
  rw [runs_bind, runs_take]
  refine ⟨fun found => ?_, fun _ => no.lays s c ready hc⟩
  refine lays_behind yes trivial ready (found ▸ plain) (Nat.le_succ n) fun more => ?_
  have settle :
      Step (s ++ ks ++ .ahead c.peek c.rest.length :: []) c (s ++ ks ++ .behind c.peek.pos :: [] ++ [.token c.peek])
      c.advance := .readBehind more
  have drop : Step (s ++ ks ++ .behind c.peek.pos :: [] ++ .token c.peek :: []) c.advance
      (s ++ ks ++ .behind c.peek.pos :: [] ++ []) c.advance := .drop rfl
  simpa [at_ c hc] using ((Steps.single .ahead).tail settle).tail drop

theorem builds_takeOnNextLine (plain : kind.isPlain = true) :
    BuildsIf C H id n [] (takeOnNextLine kind) (fun _ => True) fun _ => [] := by
  refine ⟨fun s c ready _ => ?_, fun _ c _ fits _ => extends_takeOnNextLine c fits⟩
  obtain ⟨skipped, steps⟩ := Cursor.from_skipNewlines (n := n) ready (s ++ [])
  rw [runs_takeOnNextLine]
  refine ⟨fun found => ?_, fun _ => ⟨⟨.refl ready, fun h => absurd h Bool.false_ne_true, .refl⟩, trivial⟩⟩
  obtain ⟨step, length⟩ := Cursor.from_advance (n := n) skipped.ready (found ▸ plain)
  have le := skipped.le
  have more : c.skipNewlines.rest ≠ [] := fun none => by simp [none] at length
  exact ⟨⟨skipped.trans step (by omega), fun _ => by omega, steps.trans (.advance more)⟩, trivial⟩

theorem builds_continueLine : BuildsIf C H (fun _ => false) n [] continueLine (fun _ => True) fun _ => [] := by
  refine ⟨fun s c ready _ => ?_, fun _ c _ fits _ => extends_continueLine c fits⟩
  obtain ⟨skipped, steps⟩ := Cursor.from_skipNewlines (n := n) ready (s ++ [])
  rw [runs_continueLine]
  refine ⟨fun _ => ⟨⟨skipped, ?_, steps⟩, trivial⟩, fun _ => ⟨⟨.refl ready, ?_, .refl⟩, trivial⟩⟩ <;> simp

/-- After a token that was read the rules may be one level lower. -/
theorem BuildsIf.taken {p : Parser Bool} {f : Bool → Parser β} {P : Bool → Prop}
    (h : BuildsIf C H id (n + 1) [] p P fun _ => []) (yes : Builds C (fun _ => false) n ks (f true) Q B)
    (no : Builds C M (n + 1) ks (f false) Q B) : BuildsIf C H M (n + 1) ks (p >>= f) Q B := by
  have framed := h.frame ks
  rw [List.append_nil] at framed
  refine framed.bindAt (k := fun b => if b then n else n + 1) (l := fun b => if b then fun _ => false else M)
    (fun b _ => ?_) (fun b => ?_) fun b x hx => ?_ <;> cases b
  · exact no
  · exact yes
  · simp
  · simp
  · exact .inr hx
  · exact .inl rfl

/-- What comes next need not read a token if one was read. -/
theorem BuildsIf.branching {p : Parser α} {f : α → Parser β} {t : α → Bool} {P : α → Prop} {A : α → List Workpiece}
    (h : BuildsIf C H t n [] p P A)
    (hf : ∀ a, P a → Builds C (fun b => !t a && M b) n (ks ++ A a) (f a) Q B) : BuildsIf C H M n ks (p >>= f) Q B := by
  have framed := h.frame ks
  rw [List.append_nil] at framed
  refine framed.bindAt hf (fun _ => Nat.le_add_right _ _) fun a b hb => ?_
  cases t a with
  | false => exact .inr hb
  | true => exact .inl rfl

theorem BuildsIf.taking {p : Parser Bool} {f : Bool → Parser β} {P : Bool → Prop}
    (h : BuildsIf C H id n [] p P fun _ => []) (yes : Builds C (fun _ => false) n ks (f true) Q B)
    (no : Builds C M n ks (f false) Q B) : BuildsIf C H M n ks (p >>= f) Q B := by
  refine h.branching fun b _ => ?_
  rw [List.append_nil]
  cases b with
  | false => exact no
  | true => exact yes

theorem builds_endStatement : BuildsIf C H (fun _ => false) n [] endStatement (fun _ => True) fun _ => [] := by
  refine builds_peek fun t _ => ?_
  have step (h : t.kind.isPlain = true) : BuildsIf C (fun c => H c ∧ c.peek = t) (fun _ => false) n []
      (do
        let _ ← advance
        newlines) (fun _ => True) fun _ => [] := by
    exact BuildsIf.reading (builds_advance fun c hc => hc.2 ▸ h) fun t _ => builds_newlines.besides rfl
  split
  · exact builds_pure rfl trivial rfl
  · exact builds_pure rfl trivial rfl
  · rename_i h
    exact step (by rw [h]; rfl)
  · rename_i h
    exact step (by rw [h]; rfl)
  · exact builds_fail rfl

end

/-! ## Forming -/

section
variable {C : Course} {H : Cursor → Prop} {n : Nat} {ks js : List Workpiece} {p : Parser α} {P : α → Prop}
variable {A : α → List Workpiece} {M : α → Bool}

/-- From a position in the one part of the bench to the last one in the other. -/
theorem BuildsIf.spanning {a b : Position} (h : BuildsIf C H M n (ks ++ js ++ [.place (a.merge b)]) p P A)
    (ha : a ∈ places ks) (hb : (places js).getLast? = some b) : BuildsIf C H M n (ks ++ js) p P A := by
  refine h.laying fun s c _ => .join ?_ ?_
  · simp [ha]
  · simp [hb]

theorem BuildsIf.copying (h : BuildsIf C H M n (ks ++ [x] ++ [.place pos]) p P A)
    (at_ : x.pos? = some pos) : BuildsIf C H M n (ks ++ [x]) p P A := by
  refine h.after fun s c _ => ?_
  simpa using Steps.single (Step.copy (s := s ++ ks) at_)

theorem BuildsIf.forming (h : BuildsIf C H M n (K ++ [x]) p P A)
    (forms : ∀ c, Forms c js x c) : BuildsIf C H M n (K ++ js) p P A := by
  refine h.after fun s c _ => ?_
  simpa using Steps.single (.form (s := s ++ K) (forms c))

theorem builds_formed {a : α} {x : α → Workpiece} (forms : ∀ c, Forms c ks (x a) c) (hP : P a) (hm : M a = false) :
    BuildsIf C H M n ks (pure a) P fun a => [x a] := by
  have done : BuildsIf C H M n ([] ++ [x a]) (pure a) P fun a => [x a] := builds_done rfl hP hm
  simpa using done.forming forms

theorem BuildsIf.blocking {x : Stmt} (h : BuildsIf C H M n (ks ++ [.stmt x.toBlock]) p P A) :
    BuildsIf C H M n (ks ++ [.stmt x]) p P A :=
  h.after fun s _ _ => by simpa using Steps.single (.toBlock (s := s ++ ks) (r := []))

theorem builds_stmt {kind : StmtKind} (parts : codes ks = kind.pieces) (place : pos ∈ places ks)
    (formed : kind.Formed ks pos) :
    BuildsIf C H (fun _ => false) n ks (pure ⟨pos, kind⟩) (fun _ => True) fun s => [.stmt s] :=
  builds_formed (fun _ => .stmt parts place formed) trivial rfl

theorem builds_nodeBy {kind : ExprKind} {P : Expr → Prop} (hP : ∀ e, e.kind = kind → e.pos = pos → P e)
    (forms : ∀ c, Forms c ks (.expr ⟨c.nextId, pos, kind⟩) { c with nextId := c.nextId + 1 }) :
    BuildsIf C H (fun _ => false) n ks (node kind pos) P fun e => [.expr e] := by
  refine ⟨fun s c ready _ => ?_, fun _ c _ fits _ => spans_node.loosen c fits⟩
  rw [runs_node]
  exact ⟨⟨(Cursor.From.refl ready).congr rfl rfl rfl, fun h => absurd h Bool.false_ne_true, .single (.form (forms c))⟩,
    hP _ rfl rfl⟩

theorem builds_node {kind : ExprKind} {P : Expr → Prop} (parts : codes ks = kind.pieces)
    (layered : kind.Layered) (place : pos ∈ places ks)
    (name : kind.isName = true → ∃ t, .token t ∈ ks ∧ pos = t.pos) (hP : ∀ e, e.kind = kind → e.pos = pos → P e) :
    BuildsIf C H (fun _ => false) n ks (node kind pos) P fun e => [.expr e] :=
  builds_nodeBy hP fun _ => .expr parts layered place name

/-- A node that is no name. -/
theorem builds_nodeAt {kind : ExprKind} {tier : Nat} (parts : codes ks = kind.pieces)
    (layered : kind.Layered) (place : pos ∈ places ks) (ht : tier ≤ kind.tier) (other : kind.isName = false) :
    BuildsIf C H (fun _ => false) n ks (node kind pos) (·.StandsAt tier) fun e => [.expr e] :=
  builds_node parts layered place (fun name => absurd (other.symm.trans name) Bool.false_ne_true)
    fun _ same _ => .inl (same ▸ ht)

/-- A node from a position in the one part of the bench to one in the other. -/
theorem builds_span {kind : ExprKind} {a b : Position} {tier : Nat} (ha : a ∈ places ks)
    (hb : (places js).getLast? = some b) (parts : codes (ks ++ js) = kind.pieces) (layered : kind.Layered)
    (ht : tier ≤ kind.tier) (other : kind.isName = false) :
    BuildsIf C H (fun _ => false) n (ks ++ js) (node kind (a.merge b)) (·.StandsAt tier) fun e => [.expr e] :=
  (builds_nodeAt (by simpa using parts) layered (by simp) ht other).spanning ha hb

/-- A name takes the token at which it stands. -/
theorem builds_name {kind : ExprKind} (parts : kind.pieces = []) (layered : kind.Layered)
    (ht : 9 ≤ kind.tier) : BuildsIf C H (fun _ => false) n [.token token] (node kind token.pos)
      (fun e => e.StandsAt 9 ∧ e.pos = token.pos) fun e => [.expr e] :=
  builds_node (by simp [parts]) layered (by simp) (fun _ => ⟨token, by simp, rfl⟩) fun _ same pos =>
    ⟨.inl (same ▸ ht), pos⟩

end

/-! ## Loops -/

section
variable {C : Course} {H : Cursor → Prop} {n : Nat}
variable {p : Parser α} {A : α → List Workpiece} {P : α → Prop}

theorem builds_iterate {round : σ → Parser (Round σ α)} {b : Bool} {state : σ} {ks : List Workpiece}
    (K : σ → List Workpiece) (S : σ → Prop) (start : S state) (same : K state = ks) (step : ∀ state, S state →
      Builds C (Round.either (fun _ => true) fun _ => b) n (K state) (round state) (Round.either S P)
        (Round.either K A)) :
    BuildsIf C H (fun _ => b) n ks (iterate round state) P A := by
  subst same
  refine ⟨fun s c ready _ => ?_, fun Z c ready fits _ => ?_⟩
  case refine_2 =>
    refine GrowsAt.iterate (fun _ => false) (I := fun state c => C.Ready c ∧ S state)
      (fun state c h fits => (step state h.2).grows Z c h.1 fits trivial) (fun state c h r d run next again => ?_)
      (.inr (.inr fun _ => rfl)) ⟨ready, start⟩ fits
    have laid := (runs_of_eq run).mp ((step state h.2).lays [] c h.1 trivial)
    subst again
    exact ⟨laid.1.way.ready, laid.2⟩
  refine runs_loop (I := fun state' d => Lays C n false s (K state) (K state') c d ∧ S state')
    ⟨⟨.refl ready, fun h => absurd h Bool.false_ne_true, .refl⟩, start⟩ fun state' d hd => ?_
  have le := hd.1.way.le
  have run := (step state' hd.2).lays s d hd.1.way.ready trivial
  unfold runs at run ⊢
  split at run
  · rename_i r d' _
    obtain ⟨laid, good⟩ := run
    have way := hd.1.way.trans laid.way (by omega)
    have steps := hd.1.steps.trans laid.steps
    cases r with
    | again next => exact ⟨laid.moved rfl, ⟨way, fun h => absurd h Bool.false_ne_true, steps⟩, good⟩
    | done a => exact ⟨⟨way, fun h => Nat.lt_of_lt_of_le (laid.moved h) le, steps⟩, good⟩
  · exact ⟨run.known, fun stalled => Nat.le_trans (run.bound stalled) le⟩

theorem builds_itemsUntil {stop : TokenKind → Bool} (code : ∀ a, codes (A a) = A a) (hp : Strides C n [] p A) :
    BuildsIf C H (fun _ => false) n [] (itemsUntil stop p) (fun _ => True) (·.flatMap A) := by
  refine builds_iterate (fun items : List α => items.reverse.flatMap A) (fun _ => True) trivial rfl fun items _ => ?_
  refine builds_peek fun t _ => builds_ite (fun _ => builds_pure (codes_flatMap code _) trivial rfl) fun _ => ?_
  refine BuildsIf.reading hp.any fun x _ => BuildsIf.andThen builds_newlines fun _ _ => ?_
  exact builds_pure (by simp [codes_flatMap code, code]) trivial rfl

theorem builds_separated (code : ∀ a, codes (A a) = A a) (hp : Strides C n [] p A) :
    BuildsIf C H (fun _ => true) n [] (separated p) (fun _ => True) (·.flatMap A) := by
  refine builds_iterate (fun items : List α => items.reverse.flatMap A) (fun _ => True) trivial rfl fun items _ => ?_
  refine BuildsIf.andThen builds_newlines fun _ _ => BuildsIf.reading hp fun x _ => ?_
  refine BuildsIf.andThen builds_newlines fun _ _ => BuildsIf.andThen (builds_take rfl) fun more _ => ?_
  refine builds_ite (fun _ => builds_pure ?_ trivial rfl) fun _ => builds_pure ?_ trivial rfl
  · simp [codes_flatMap code, code]
  · simp [codes_flatMap code, code]

theorem builds_parenthesized (code : ∀ a, codes (A a) = A a) (hp : Strides C n [] p A) :
    BuildsIf C H (fun _ => true) n [] (parenthesized p what) (fun _ => True) (·.flatMap A) := by
  refine BuildsIf.andThen builds_newlines fun _ _ => BuildsIf.andThen (A := (·.flatMap A)) (P := fun _ => True)
    (builds_iterate (fun items : List α => items.reverse.flatMap A) (fun _ => True) (b := false) trivial rfl
      fun items _ => ?_) fun items _ => ?_
  · refine builds_atKind fun b => builds_ite (fun _ => builds_pure (codes_flatMap code _) trivial rfl) fun _ => ?_
    refine BuildsIf.reading hp.any fun x _ => BuildsIf.andThen builds_newlines fun _ _ => ?_
    refine BuildsIf.andThen (builds_take rfl) fun more _ => builds_ite (fun _ => ?_) fun _ => builds_pure ?_ trivial rfl
    · refine BuildsIf.andThen builds_newlines fun _ _ => builds_pure ?_ trivial rfl
      simp [codes_flatMap code, code]
    · simp [codes_flatMap code, code]
  · refine BuildsIf.reading (builds_expect rfl) fun _ _ => builds_pure ?_ trivial rfl
    simp [codes_flatMap code]

theorem builds_after? (plain : kind.isPlain = true) (code : ∀ a, codes (A a) = A a)
    (hp : Builds C (fun _ => false) n [] p P A) :
    BuildsIf C H (fun _ => false) (n + 1) [] (after? kind p) (fun a => ∀ x ∈ a, P x) (·.toList.flatMap A) := by
  refine BuildsIf.taken (builds_take plain) ?_ (builds_pure rfl (by simp) rfl)
  exact BuildsIf.andThen hp fun a ha => builds_pure (by simp [code]) (by simpa using ha) rfl

end

end Parser

/-- What the rules build, if they are within their bound. -/
structure Rules.Build (C : Course) (n : Nat) (r : Rules) : Prop where
  typePath : ∀ allowNullable, Parser.Passes C n (r.typePath allowNullable)
  expression : Parser.StridesAt C n 0 r.expression
  unary : Parser.StridesAt C n 8 r.unary
  statement : Parser.Strides C n [] r.statement fun s => [.stmt s]
  declaration : Parser.Strides C n [] r.declaration fun s => [.stmt s]
  embeds : ∀ c, C.Ready c → c.rest.length < n → Parser.wp r.expression (fun _ c' => C.Embeds c.rest c'.rest) c
  grows : ∀ Z, Parser.Extends Z r.expression

end PhaseLang
