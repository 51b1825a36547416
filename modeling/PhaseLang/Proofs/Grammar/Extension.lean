import Mathlib.Data.List.Basic
import PhaseLang.Grammar.Expression
import PhaseLang.Proofs.Grammar.Outcome

/-!
# More tokens behind a row

What a parser does over a row of tokens, it does over the same row with more tokens behind it, as
long as it does not come to the end of the row: it `Extends`. Where a rule ends with a token that it
needs, coming to the end does not matter either; such rules are `Tight`.

The tokens behind are a `Tail`. It starts with a line break or with an operator that continues a
line, and those are the kinds that no rule but those for infix operators looks for at its end.
-/

namespace PhaseLang

variable {kind : TokenKind}

structure Tail where
  tokens : List Token
  first : ∀ t ∈ tokens.head?, t.kind = .newline ∨ t.kind.isContinuation = true

namespace TokenKind

def isInner (kind : TokenKind) : Bool := kind != .eof && kind != .newline && !kind.isContinuation

end TokenKind

namespace Tail

def none : Tail := ⟨[], by simp⟩

/-- The cursor can be followed by the tail: its own row does not end with a line break. -/
structure Fits (Z : Tail) (c : Cursor) : Prop where
  eof : c.eof.kind = .eof
  only : ∀ t ∈ c.rest, t.kind ≠ .eof
  last : Z.tokens = [] ∨ ∀ t ∈ c.rest.getLast?, t.kind ≠ .newline

variable {Z : Tail} {c d : Cursor} {kind : TokenKind}

theorem Fits.ended (eof : c.eof.kind = .eof) (ended : c.rest = []) : Z.Fits c :=
  ⟨eof, by simp [ended], .inr (by simp [ended])⟩

theorem Fits.step (h : Z.Fits c) (suffix : d.rest <:+ c.rest) (eof : d.eof = c.eof) : Z.Fits d where
  eof := eof ▸ h.eof
  only t ht := h.only t (suffix.mem ht)
  last := by
    refine h.last.imp id fun last t ht => last t ?_
    obtain ⟨front, rest⟩ := suffix
    rw [← rest, List.getLast?_append]
    simp [Option.mem_def.mp ht]

end Tail

namespace Cursor

variable {Z : Tail} {c : Cursor} {kind : TokenKind}

def Breaks (c : Cursor) : Prop := ∃ t ∈ c.rest.getLast?, t.kind = .newline

theorem Breaks.filled (h : c.Breaks) : c.rest ≠ [] := by
  rintro ended
  simp [Breaks, ended] at h

theorem Breaks.suffix {d : Cursor} (h : c.Breaks) (suffix : d.rest <:+ c.rest) (filled : d.rest ≠ []) : d.Breaks := by
  obtain ⟨t, mem, newline⟩ := h
  obtain ⟨front, rest⟩ := suffix
  rw [← rest, List.getLast?_append_of_ne_nil _ filled] at mem
  exact ⟨t, mem, newline⟩

theorem Breaks.advance (h : c.Breaks) (other : c.peek.kind ≠ .newline) : c.advance.rest ≠ [] := by
  obtain ⟨t, ts, rest⟩ := List.exists_cons_of_ne_nil h.filled
  simp only [Cursor.advance, rest]
  rintro rfl
  simp only [Breaks, peek, rest, List.getLast?_singleton, List.headD_cons] at h other
  simp_all

def extend (c : Cursor) (Z : Tail) : Cursor := { c with rest := c.rest ++ Z.tokens }

theorem extend_of_nil (h : Z.tokens = []) : c.extend Z = c := by
  rw [extend, h, List.append_nil]

theorem peek_extend (h : c.rest ≠ []) : (c.extend Z).peek = c.peek := by
  obtain ⟨t, ts, rest⟩ := List.exists_cons_of_ne_nil h
  simp [peek, extend, rest]

theorem advance_extend (h : c.rest ≠ []) : (c.extend Z).advance = c.advance.extend Z := by
  obtain ⟨t, ts, rest⟩ := List.exists_cons_of_ne_nil h
  simp [advance, extend, rest]

@[simp] theorem advance_eof (c : Cursor) : c.advance.eof = c.eof := by
  unfold advance; split <;> rfl

theorem advance_suffix (c : Cursor) : c.advance.rest <:+ c.rest := by
  unfold advance
  split
  · exact List.suffix_rfl
  · rename_i rest
    rw [rest]
    exact List.suffix_cons _ _

theorem skipNewlines_go_suffix (c : Cursor) : ∀ (ts : List Token) (previous : Token),
    (skipNewlines.go c previous ts).rest <:+ ts ∧ (skipNewlines.go c previous ts).eof = c.eof
  | [], _ => ⟨List.suffix_rfl, rfl⟩
  | t :: ts, previous => by
    unfold skipNewlines.go
    split
    · have := skipNewlines_go_suffix c ts t
      exact ⟨this.1.trans (List.suffix_cons t ts), this.2⟩
    · exact ⟨List.suffix_rfl, rfl⟩

theorem skipNewlines_suffix (c : Cursor) : c.skipNewlines.rest <:+ c.rest := (skipNewlines_go_suffix c _ _).1

@[simp] theorem skipNewlines_eof (c : Cursor) : c.skipNewlines.eof = c.eof := (skipNewlines_go_suffix c _ _).2

theorem filled_of_skipNewlines (h : c.skipNewlines.rest ≠ []) : c.rest ≠ [] :=
  fun ended => h (List.eq_nil_of_suffix_nil (ended ▸ c.skipNewlines_suffix))

theorem skipNewlines_go_extend (c : Cursor) (Z : Tail) : ∀ (ts : List Token) (previous : Token), ts ≠ [] →
    (∀ t ∈ ts.getLast?, t.kind ≠ .newline) →
    skipNewlines.go (c.extend Z) previous (ts ++ Z.tokens) = (skipNewlines.go c previous ts).extend Z ∧
      (skipNewlines.go c previous ts).rest ≠ []
  | [], _, filled, _ => absurd rfl filled
  | t :: ts, previous, _, last => by
    by_cases newline : t.kind = .newline
    · have more : ts ≠ [] := by
        rintro rfl
        exact last t (by simp) newline
      have step :=
        skipNewlines_go_extend c Z ts t more fun u hu => last u (by simp [List.getLast?_cons, Option.mem_def.mp hu])
      rw [List.cons_append, skipNewlines.go, skipNewlines.go, if_pos newline, if_pos newline]
      exact step
    · rw [List.cons_append, skipNewlines.go, skipNewlines.go, if_neg newline, if_neg newline]
      exact ⟨rfl, by simp⟩

theorem skipNewlines_extend (h : c.rest ≠ []) (last : ∀ t ∈ c.rest.getLast?, t.kind ≠ .newline) :
    (c.extend Z).skipNewlines = c.skipNewlines.extend Z ∧ c.skipNewlines.rest ≠ [] :=
  skipNewlines_go_extend c Z c.rest c.previous h last

theorem peek_kind_ne_of_nil (eof : c.eof.kind = .eof) (inner : kind.isInner = true) (h : c.rest = []) :
    c.peek.kind ≠ kind := by
  rintro rfl
  simp [peek, h, eof, TokenKind.isInner] at inner

section
variable (fits : Z.Fits c) (inner : kind.isInner = true)
include fits inner

theorem peek_extend_kind : (c.extend Z).peek.kind = kind ↔ c.peek.kind = kind := by
  by_cases h : c.rest = []
  · refine iff_of_false ?_ (peek_kind_ne_of_nil fits.eof inner h)
    rintro rfl
    cases tokens : Z.tokens with
    | nil => simp [peek, extend, h, tokens, fits.eof, TokenKind.isInner] at inner
    | cons t ts =>
      have first := Z.first t (by simp [tokens])
      simp only [peek, extend, h, tokens, List.nil_append, List.headD_cons] at inner
      rcases first with first | first <;> simp [TokenKind.isInner, first] at inner
  · rw [peek_extend h]

theorem peekNext_extend_kind (h : c.rest ≠ []) : (c.extend Z).peekNext.kind = kind ↔ c.peekNext.kind = kind := by
  obtain ⟨t, ts, rest⟩ := List.exists_cons_of_ne_nil h
  have fits' : Z.Fits { c with rest := ts } := fits.step (by simp [rest]) rfl
  simpa [peekNext, peek, extend, rest] using peek_extend_kind fits' inner

end

end Cursor

namespace Parser

variable {α β σ : Type}

theorem run_bind {p : Parser α} {f : α → Parser β} {c d : Cursor} {a : α} (h : p c = .ok (a, d)) :
    (p >>= f) c = f a d := by
  show (do let (a, s) ← p c; f a s : Except SyntaxError (β × Cursor)) = _
  rw [h]
  rfl

/-- How `p` runs from a cursor and `q` from the cursor with the tail behind it: `p` stays over its row, and unless it
has come to its end, `q` does the same. If the result is `full` this is so even at the end, and a line break at the
end of the row has not been read. -/
structure Grown (Z : Tail) (full : Bool) (q : Parser α) (c : Cursor) (a : α) (c' : Cursor) : Prop where
  suffix : c'.rest <:+ c.rest
  eof : c'.eof = c.eof
  same : full = true ∨ c'.rest ≠ [] → q (c.extend Z) = .ok (a, c'.extend Z)
  more : full = true → c.Breaks → c'.rest ≠ []

def GrowsAt (Z : Tail) (full : α → Bool) (p : Parser α) (c : Cursor) : Prop :=
  wp p (fun a c' => Grown Z (full a) p c a c') c

def Grows (Z : Tail) (full : α → Bool) (p : Parser α) : Prop := ∀ c, Z.Fits c → GrowsAt Z full p c

abbrev ExtendsAt (Z : Tail) (p : Parser α) (c : Cursor) : Prop := GrowsAt Z (fun _ => false) p c

abbrev Extends (Z : Tail) (p : Parser α) : Prop := Grows Z (fun _ => false) p

abbrev Spans (Z : Tail) (p : Parser α) : Prop := Grows Z (fun _ => true) p

/-- The parser returns nothing full without a token. -/
def Starves (full : α → Bool) (p : Parser α) : Prop :=
  ∀ c, c.eof.kind = .eof → c.rest = [] → wp p (fun a _ => full a = false) c

def Hungry (p : Parser α) : Prop := ∀ c, c.eof.kind = .eof → c.rest = [] → wp p (fun _ _ => False) c

structure Tight (Z : Tail) (p : Parser α) : Prop where
  spans : Spans Z p
  hungry : Hungry p

section
variable {Z : Tail} {full : α → Bool} {full' : β → Bool} {p q : Parser α} {f : α → Parser β} {c : Cursor}

theorem Grown.ended {full : Bool} {c c' : Cursor} {a : α} (h : Grown Z full q c a c') (ended : c.rest = []) :
    c'.rest = [] :=
  List.eq_nil_of_suffix_nil (ended ▸ h.suffix)

theorem Hungry.starves (h : Hungry p) : Starves full p := fun c eof ended =>
  wp_mono (h c eof ended) fun _ _ => False.elim

theorem starves_never : Starves (fun _ => false) p := fun _ _ _ _ _ _ => rfl

theorem starves_pure {a : α} (h : full a = false) : Starves full (pure a) := fun _ _ _ => by simpa using h

theorem Grows.weaken (h : Spans Z p) : Grows Z full p := fun c fits =>
  wp_mono (h c fits) fun _ _ run => ⟨run.suffix, run.eof, fun _ => run.same (.inl rfl), fun _ => run.more rfl⟩

theorem GrowsAt.loosen (h : GrowsAt Z full p c) : ExtendsAt Z p c :=
  wp_mono h fun _ _ run =>
    ⟨run.suffix, run.eof, fun more => run.same (more.imp_left Bool.noConfusion), Bool.noConfusion⟩

theorem Grows.loosen (h : Grows Z full p) : Extends Z p := fun c fits => (h c fits).loosen

theorem Grows.unfilled (h : Extends Z p) (never : ∀ c, wp p (fun a _ => full a = false) c) : Grows Z full p := by
  intro c fits a d run
  rw [never c a d run]
  exact h c fits a d run

/-- One parser after the other. If the first comes to the end with a result that is not full, the
second must not return a full one. -/
theorem GrowsAt.andThen (fits : Z.Fits c) (hp : GrowsAt Z full p c)
    (hf : ∀ a d, p c = .ok (a, d) → Z.Fits d → GrowsAt Z full' (f a) d)
    (safe : ∀ a, full a = true ∨ Starves full' (f a)) : GrowsAt Z full' (p >>= f) c := by
  rw [GrowsAt, wp_bind]
  intro a d run
  have first := hp a d run
  have fits' := fits.step first.suffix first.eof
  intro b e run'
  have second := hf a d run fits' b e run'
  refine ⟨second.suffix.trans first.suffix, second.eof.trans first.eof, fun more => ?_, fun filled breaks => ?_⟩
  · have reached : full a = true ∨ d.rest ≠ [] := by
      refine (safe a).imp id fun starves ended => ?_
      simp [starves d fits'.eof ended b e run', second.ended ended] at more
    rw [run_bind (first.same reached)]
    exact second.same more
  · have left : d.rest ≠ [] := by
      rcases safe a with whole | starves
      · exact first.more whole breaks
      · intro ended
        rw [starves d fits'.eof ended b e run'] at filled
        cases filled
    exact second.more filled (breaks.suffix first.suffix left)

theorem GrowsAt.next (fits : Z.Fits c) (hp : GrowsAt Z full p c)
    (hf : ∀ a d, p c = .ok (a, d) → Z.Fits d → ExtendsAt Z (f a) d) : ExtendsAt Z (p >>= f) c :=
  hp.andThen fits hf fun _ => .inr starves_never

theorem Grows.andThen (hp : Grows Z full p) (hf : ∀ a, Grows Z full' (f a))
    (safe : ∀ a, full a = true ∨ Starves full' (f a)) : Grows Z full' (p >>= f) :=
  fun c fits => (hp c fits).andThen fits (fun a d _ => hf a d) safe

theorem Grows.next (hp : Grows Z full p) (hf : ∀ a, Extends Z (f a)) : Extends Z (p >>= f) :=
  hp.andThen hf fun _ => .inr starves_never

theorem Spans.bind (hp : Spans Z p) (hf : ∀ a, Grows Z full' (f a)) : Grows Z full' (p >>= f) :=
  hp.andThen hf fun _ => .inl rfl

theorem Hungry.bind (h : Hungry p) : Hungry (p >>= f) := fun c eof ended =>
  wp_bind.mpr (wp_mono (h c eof ended) fun _ _ => False.elim)

theorem Hungry.after (hp : Grows Z full p) (hf : ∀ a, Hungry (f a)) : Hungry (p >>= f) := by
  intro c eof ended
  rw [wp_bind]
  intro a d run
  have first := hp c (.ended eof ended) a d run
  exact hf a d (first.eof ▸ eof) (first.ended ended)

theorem Tight.bind (hp : Tight Z p) (hf : ∀ a, Spans Z (f a)) : Tight Z (p >>= f) :=
  ⟨Spans.bind hp.spans hf, hp.hungry.bind⟩

theorem Grows.tight (hp : Grows Z full p) (hf : ∀ a, Tight Z (f a)) : Tight Z (p >>= f) :=
  ⟨hp.andThen (fun a => (hf a).spans) fun a => .inr (hf a).hungry.starves, .after hp fun a => (hf a).hungry⟩

theorem Tight.grows (h : Tight Z p) : Grows Z full p := h.spans.weaken

theorem Grows.ite {b : Prop} [Decidable b] (h : Grows Z full p) (h' : Grows Z full q) :
    Grows Z full (if b then p else q) := by
  split
  · exact h
  · exact h'

theorem Tight.ite {b : Prop} [Decidable b] (h : Tight Z p) (h' : Tight Z q) : Tight Z (if b then p else q) := by
  split
  · exact h
  · exact h'

/-! ## Steps -/

theorem grows_pure {a : α} : Grows Z full (pure a) := by
  intro c _
  rw [GrowsAt, wp_pure]
  exact ⟨List.suffix_rfl, rfl, fun _ => rfl, fun _ breaks => breaks.filled⟩

theorem spans_pure {a : α} : Spans Z (pure a) := grows_pure

theorem tight_failAt {t : Token} {problem : SyntaxProblem} : Tight Z (failAt t problem : Parser α) :=
  ⟨fun _ _ => by simp [GrowsAt], fun _ _ _ => by simp⟩

theorem tight_fail {problem : SyntaxProblem} : Tight Z (fail problem : Parser α) :=
  ⟨fun _ _ => by simp [GrowsAt], fun _ _ _ => by simp⟩

theorem grows_step {get : Cursor → α} {move : Cursor → Cursor} (run : ∀ c, p c = .ok (get c, move c))
    (stays : ∀ c, (move c).rest <:+ c.rest ∧ (move c).eof = c.eof)
    (same : ∀ c, Z.Fits c → (∀ t ∈ c.rest.getLast?, t.kind ≠ .newline) → full (get c) = true ∨ (move c).rest ≠ [] →
      get (c.extend Z) = get c ∧ move (c.extend Z) = (move c).extend Z)
    (more : ∀ c, full (get c) = true → c.Breaks → (move c).rest ≠ []) : Grows Z full p := by
  intro c fits a c' h
  rw [run] at h
  cases h
  refine ⟨(stays c).1, (stays c).2, fun reached => ?_, more c⟩
  rw [run]
  rcases fits.last with nothing | last
  · rw [Cursor.extend_of_nil nothing, Cursor.extend_of_nil nothing]
  · rw [(same c fits last reached).1, (same c fits last reached).2]

theorem spans_step {p : Parser α} {get : Cursor → α} {move : Cursor → Cursor} (run : ∀ c, p c = .ok (get c, move c))
    (rest : ∀ c, (move c).rest = c.rest ∧ (move c).eof = c.eof)
    (same : ∀ c, get (c.extend Z) = get c ∧ move (c.extend Z) = (move c).extend Z) : Spans Z p :=
  grows_step run (fun c => ⟨(rest c).1 ▸ List.suffix_rfl, (rest c).2⟩) (fun c _ _ _ => same c)
    fun c _ breaks => (rest c).1 ▸ breaks.filled

theorem spans_modify {g : Cursor → Cursor} (rest : ∀ c, (g c).rest = c.rest ∧ (g c).eof = c.eof)
    (same : ∀ c, g (c.extend Z) = (g c).extend Z) : Spans Z (modify g : Parser Unit) :=
  spans_step (fun _ => rfl) rest fun c => ⟨rfl, same c⟩

theorem spans_previous : Spans Z previous := spans_step (fun _ => rfl) (by simp) fun _ => ⟨rfl, rfl⟩

theorem spans_node {kind : ExprKind} {pos : Position} : Spans Z (node kind pos) :=
  spans_step (fun _ => rfl) (fun _ => ⟨rfl, rfl⟩) fun _ => ⟨rfl, rfl⟩

theorem spans_spanFrom (start : Token) : Spans Z (spanFrom start) :=
  spans_previous.bind fun _ => grows_pure

theorem extends_peek : Extends Z peek :=
  grows_step (fun _ => rfl) (fun _ => ⟨List.suffix_rfl, rfl⟩)
    (fun c _ _ more => ⟨Cursor.peek_extend (by simpa using more), rfl⟩) (by simp)

theorem extends_advance : Extends Z advance := by
  refine grows_step (fun _ => rfl) (fun c => ⟨c.advance_suffix, c.advance_eof⟩) (fun c _ _ more => ?_) (by simp)
  have filled : c.rest ≠ [] := fun ended => by simp [Cursor.advance, ended] at more
  exact ⟨Cursor.peek_extend filled, Cursor.advance_extend filled⟩

theorem extends_newlines : Extends Z newlines := by
  refine grows_step (fun _ => rfl) (fun c => ⟨c.skipNewlines_suffix, c.skipNewlines_eof⟩) (fun c _ last more => ?_)
    (by simp)
  have filled : c.rest ≠ [] := Cursor.filled_of_skipNewlines (more.resolve_left Bool.false_ne_true)
  exact ⟨rfl, (Cursor.skipNewlines_extend filled last).1⟩

theorem extends_continueLine : Extends Z continueLine := by
  have run (c : Cursor) :
      continueLine c = .ok ((), if c.skipNewlines.peek.kind.isContinuation then c.skipNewlines else c) := by
    rw [← runs_eq_iff, runs_continueLine]
    simp +contextual
  refine grows_step run (fun c => ?_) (fun c _ last more => ⟨rfl, ?_⟩) (by simp)
  · split
    · exact ⟨c.skipNewlines_suffix, c.skipNewlines_eof⟩
    · exact ⟨List.suffix_rfl, rfl⟩
  · have filled : c.rest ≠ [] := by
      replace more := more.resolve_left Bool.false_ne_true
      split at more
      · exact Cursor.filled_of_skipNewlines more
      · exact more
    obtain ⟨skip, some⟩ := Cursor.skipNewlines_extend (Z := Z) filled last
    rw [skip, Cursor.peek_extend some]
    split <;> rfl

theorem extends_takeOnNextLine : Extends Z (takeOnNextLine kind) := by
  have run (c : Cursor) : takeOnNextLine kind c =
      .ok (c.skipNewlines.peek.kind == kind,
        if c.skipNewlines.peek.kind = kind then c.skipNewlines.advance else c) := by
    rw [← runs_eq_iff, runs_takeOnNextLine]
    simp +contextual
  refine grows_step run (fun c => ?_) (fun c _ last more => ?_) (by simp)
  · split
    · exact ⟨(Cursor.advance_suffix _).trans c.skipNewlines_suffix, by simp⟩
    · exact ⟨List.suffix_rfl, rfl⟩
  · have filled : c.rest ≠ [] := by
      replace more := more.resolve_left Bool.false_ne_true
      split at more
      · exact Cursor.filled_of_skipNewlines fun ended => more (by simp [Cursor.advance, ended])
      · exact more
    obtain ⟨skip, some⟩ := Cursor.skipNewlines_extend (Z := Z) filled last
    rw [skip, Cursor.peek_extend some, Cursor.advance_extend some]
    exact ⟨rfl, by split <;> rfl⟩

theorem spans_atKind (inner : kind.isInner = true) : Spans Z (atKind kind) := by
  refine grows_step (fun _ => rfl) (fun _ => ⟨List.suffix_rfl, rfl⟩) (fun c fits _ _ => ⟨?_, rfl⟩)
    fun c _ breaks => breaks.filled
  rw [Bool.eq_iff_iff, beq_iff_eq, beq_iff_eq]
  exact Cursor.peek_extend_kind fits inner

theorem extends_atKind : Extends Z (atKind kind) :=
  extends_peek.next fun _ => grows_pure

theorem spans_take (inner : kind.isInner = true) : Spans Z (take kind) := by
  have run (c : Cursor) :
      take kind c = .ok (c.peek.kind == kind, if c.peek.kind = kind then c.advance else c) := by
    rw [← runs_eq_iff, runs_take]
    simp +contextual
  refine grows_step run (fun c => ?_) (fun c fits _ _ => ?_) fun c _ breaks => ?_
  · split
    · exact ⟨c.advance_suffix, c.advance_eof⟩
    · exact ⟨List.suffix_rfl, rfl⟩
  · have same := Cursor.peek_extend_kind fits inner
    refine ⟨by rw [Bool.eq_iff_iff, beq_iff_eq, beq_iff_eq, same], ?_⟩
    simp only [same]
    split
    · rename_i found
      exact Cursor.advance_extend fun ended => Cursor.peek_kind_ne_of_nil fits.eof inner ended found
    · rfl
  · split
    · rename_i found
      exact breaks.advance fun newline => by simp [← found, newline, TokenKind.isInner] at inner
    · exact breaks.filled

theorem tight_take (inner : kind.isInner = true) {f : Bool → Parser β} (found : Spans Z (f true))
    (other : Tight Z (f false)) : Tight Z (take kind >>= f) where
  spans := Spans.bind (spans_take inner) fun b => by
    cases b with
    | true => exact found
    | false => exact other.spans
  hungry := by
    intro c eof ended
    rw [wp_bind, wp_take]
    exact ⟨fun found => absurd found (Cursor.peek_kind_ne_of_nil eof inner ended), fun _ => other.hungry c eof ended⟩

theorem tight_consume (inner : kind ≠ .eof ∧ kind ≠ .newline) {problem : SyntaxProblem} :
    Tight Z (consume kind problem) where
  spans := by
    intro c fits
    rw [GrowsAt, wp_consume]
    intro found
    have filled : c.rest ≠ [] := by
      intro ended
      rw [Cursor.peek, ended, List.headD_nil, fits.eof] at found
      exact inner.1 found.symm
    refine ⟨c.advance_suffix, c.advance_eof, fun _ => ?_, fun _ breaks => breaks.advance (found ▸ inner.2)⟩
    rw [← runs_eq_iff, runs_consume, Cursor.peek_extend filled, Cursor.advance_extend filled]
    exact ⟨fun _ => ⟨rfl, rfl⟩, fun other => other found⟩
  hungry := by
    intro c eof ended
    rw [wp_consume, Cursor.peek, ended, List.headD_nil, eof]
    exact fun found => inner.1 found.symm

theorem tight_expect (inner : (kind != .eof && kind != .newline) = true) {what : String} :
    Tight Z (expect kind what) := tight_consume (by simpa using inner)

/-! ## Looking ahead -/

theorem GrowsAt.look {g : Cursor → α} (run : ∀ c, p c = .ok (g c, c)) (h : GrowsAt Z full' (f (g c)) c)
    (same : ∀ b, full' b = true ∨ c.rest ≠ [] → f (g (c.extend Z)) = f (g c)) : GrowsAt Z full' (p >>= f) c := by
  intro b d read
  rw [run_bind (run c)] at read
  have step := h b d read
  refine ⟨step.suffix, step.eof, fun reached => ?_, step.more⟩
  rw [run_bind (run _), same b (reached.imp_right fun more ended => more (step.ended ended))]
  exact step.same reached

theorem GrowsAt.peek {f : Token → Parser β} (filled : c.rest ≠ []) (h : GrowsAt Z full' (f c.peek) c) :
    GrowsAt Z full' (Parser.peek >>= f) c :=
  .look (fun _ => rfl) h fun _ _ => by rw [Cursor.peek_extend filled]

theorem grows_peek {f : Token → Parser β}
    (ended : ∀ c, Z.Fits c → c.rest = [] → wp (f c.peek) (fun b d => Grown Z (full' b) (f (c.extend Z).peek) c b d) c)
    (more : ∀ c, Z.Fits c → c.rest ≠ [] → GrowsAt Z full' (f c.peek) c) : Grows Z full' (peek >>= f) := by
  intro c fits
  by_cases filled : c.rest = []
  · rw [GrowsAt, wp_bind, wp_peek]
    exact wp_mono (ended c fits filled) fun b d run => ⟨run.suffix, run.eof, run.same, run.more⟩
  · exact .peek filled (more c fits filled)

theorem Hungry.grows (h : Hungry p) (more : ∀ c, Z.Fits c → c.rest ≠ [] → GrowsAt Z full p c) : Grows Z full p := by
  intro c fits
  by_cases ended : c.rest = []
  · exact wp_mono (h c fits.eof ended) fun _ _ => False.elim
  · exact more c fits ended

/-- At the end nothing is said of what is not full. -/
theorem GrowsAt.starved (h : ExtendsAt Z p c) (starves : Starves full p) (fits : Z.Fits c) (ended : c.rest = []) :
    wp p (fun a d => Grown Z (full a) q c a d) c := by
  intro a d run
  have step := h a d run
  have left := starves c fits.eof ended a d run
  exact ⟨step.suffix, step.eof, by simp [left, step.ended ended], by simp [left]⟩

theorem GrowsAt.advance {f : Token → Parser β} (fits : Z.Fits c) (filled : c.rest ≠ []) (plain : c.peek.kind ≠ .newline)
    (h : Z.Fits c.advance → GrowsAt Z full' (f c.peek) c.advance) : GrowsAt Z full' (Parser.advance >>= f) c := by
  rw [GrowsAt, wp_bind, wp_advance]
  refine wp_mono (h (fits.step c.advance_suffix c.advance_eof)) fun b d run => ?_
  refine ⟨run.suffix.trans c.advance_suffix, run.eof.trans c.advance_eof, fun reached => ?_, fun full breaks => ?_⟩
  · rw [run_bind (show Parser.advance (c.extend Z) = .ok (c.peek, c.advance.extend Z) from ?_)]
    · exact run.same reached
    · rw [← runs_eq_iff, runs_advance, Cursor.peek_extend filled, Cursor.advance_extend filled]
      exact ⟨rfl, rfl⟩
  · exact run.more full (breaks.suffix c.advance_suffix (breaks.advance plain))

section
variable {f : Token → Parser β}
  (ended : ∀ t : Token, t.kind = .eof ∨ t.kind = .newline → ∀ c, wp (f t) (fun _ _ => False) c)
include ended

theorem hungry_advance : Hungry (advance >>= f) := by
  intro c eof nothing
  rw [wp_bind, wp_advance]
  exact ended _ (.inl (by simpa [Cursor.peek, nothing] using eof)) _

theorem grows_advance (h : ∀ t, Grows Z full' (f t)) : Grows Z full' (advance >>= f) := by
  refine (hungry_advance ended).grows fun c fits filled => ?_
  by_cases newline : c.peek.kind = .newline
  · rw [GrowsAt, wp_bind, wp_advance]
    exact wp_mono (ended _ (.inr newline) _) fun _ _ => False.elim
  · exact .advance fits filled newline (h _ _)

theorem tight_advance (h : ∀ t, Spans Z (f t)) : Tight Z (advance >>= f) :=
  ⟨grows_advance ended h, hungry_advance ended⟩

end

theorem GrowsAt.ahead (kind' : TokenKind) {f : Bool → Token → Parser β} (inner : kind.isInner = true)
    (inner' : kind'.isInner = true)
    (hf : ∀ b (t u : Token), (b && u.kind == kind') = (b && t.kind == kind') → f b u = f b t) (fits : Z.Fits c)
    (h : GrowsAt Z full' (f (c.peek.kind == kind) c.peekNext) c) :
    GrowsAt Z full' (do let b ← atKind kind; let t ← peekNext; f b t) c := by
  refine .look (g := fun c => c.peek.kind == kind) (fun _ => rfl) (.look (fun _ => rfl) h fun _ _ => hf _ _ _ ?_)
    fun _ _ => ?_
  · by_cases filled : c.rest = []
    · rw [beq_eq_false_iff_ne.mpr (Cursor.peek_kind_ne_of_nil fits.eof inner filled), Bool.false_and, Bool.false_and]
    · congr 1
      rw [Bool.eq_iff_iff, beq_iff_eq, beq_iff_eq, Cursor.peekNext_extend_kind fits inner' filled]
  · have first : ((c.extend Z).peek.kind == kind) = (c.peek.kind == kind) := by
      rw [Bool.eq_iff_iff, beq_iff_eq, beq_iff_eq, Cursor.peek_extend_kind fits inner]
    rw [first]

theorem tight_pair {kind' : TokenKind} {found other : Parser β} (inner : kind.isInner = true)
    (inner' : kind'.isInner = true) (h : Spans Z found) (h' : Tight Z other) :
    Tight Z
      (do
        if (← atKind kind) && (← peekNext).kind == kind' then
          let _ ← advance
          let _ ← advance
          found
        else other) := by
  refine ⟨fun c fits => .ahead kind' inner inner' (fun b t u h => by simp only [h]) fits ?_, fun c eof ended => ?_⟩
  · split
    · rename_i both
      rw [Bool.and_eq_true, beq_iff_eq, beq_iff_eq] at both
      have first : c.rest ≠ [] := fun ended => Cursor.peek_kind_ne_of_nil fits.eof inner ended both.1
      obtain ⟨u, us, rest⟩ := List.exists_cons_of_ne_nil first
      have second : c.advance.peek = c.peekNext := by simp [Cursor.advance, Cursor.peek, Cursor.peekNext, rest]
      have plain {k : TokenKind} (hk : k.isInner = true) : k ≠ .newline := by
        rintro rfl
        cases hk
      refine .advance fits first (both.1 ▸ plain inner) fun fits' => .advance fits' (fun ended => ?_) ?_ (h _)
      · refine Cursor.peek_kind_ne_of_nil fits'.eof inner' ended ?_
        rw [second, both.2]
      · rw [second, both.2]
        exact plain inner'
    · exact h'.spans c fits
  · have none : (c.peek.kind == kind) = false := beq_eq_false_iff_ne.mpr (Cursor.peek_kind_ne_of_nil eof inner ended)
    rw [wp_bind, wp_atKind, wp_bind, wp_peekNext, none]
    exact h'.hungry c eof ended

/-! ## Loops -/

def Round.isDone : Round σ α → Bool
  | .again _ => false
  | .done _ => true

section
variable {round : σ → Parser (Round σ α)} {ends : Round σ α → Bool} {I : σ → Cursor → Prop}

theorem Hungry.iterateFor (h : ∀ s, Hungry (round s)) : ∀ n s, Hungry (iterateFor round n s)
  | 0, _ => fun _ _ _ => wp_fail
  | _ + 1, s => (h s).bind

variable (step : ∀ s c, I s c → Z.Fits c → GrowsAt Z ends (round s) c)
  (next : ∀ s c, I s c → wp (round s) (fun r d => ∀ s', r = .again s' → I s' d) c)
  (safe : (∀ s, ends (.again s) = true) ∨ (∀ s, Hungry (round s)) ∨ ∀ a, ends (.done a) = false)
include step next safe

theorem GrowsAt.iterateFor : ∀ n s c, I s c → Z.Fits c → GrowsAt Z (fun a => ends (.done a)) (iterateFor round n s) c
  | 0, _, c, _, fits => tight_fail.grows c fits
  | n + 1, s, c, start, fits => by
    refine (step s c start fits).andThen fits (fun r d run fits' => ?_) fun r => ?_
    · cases r with
      | again s' => exact GrowsAt.iterateFor n s' d (next s c start _ d run s' rfl) fits'
      | done a => exact grows_pure d fits'
    · cases r with
      | again s' =>
        rcases safe with full | hungry | never
        · exact .inl (full s')
        · exact .inr (Hungry.iterateFor hungry n s').starves
        · exact .inr fun _ _ _ a _ _ => never a
      | done a =>
        cases full : ends (.done a) with
        | true => exact .inl rfl
        | false => exact .inr (starves_pure full)

variable (ends) in
theorem GrowsAt.iterate {s : σ} {c : Cursor} (start : I s c) (fits : Z.Fits c) :
    GrowsAt Z (fun a => ends (.done a)) (iterate round s) c := by
  intro a d run
  have loop := GrowsAt.iterateFor step next safe _ s c start fits a d run
  refine ⟨loop.suffix, loop.eof, fun reached => ?_, loop.more⟩
  -- there are more rounds over the longer row
  exact iterateFor_mono (by simp [Cursor.extend]) (loop.same reached)

omit step next safe in
variable (ends) in
theorem Grows.iterate (step : ∀ s, Grows Z ends (round s))
    (safe : (∀ s, ends (.again s) = true) ∨ (∀ s, Hungry (round s)) ∨ ∀ a, ends (.done a) = false) (s : σ) :
    Grows Z (fun a => ends (.done a)) (iterate round s) := fun _ fits =>
  GrowsAt.iterate ends (I := fun _ _ => True) (fun s c _ => step s c) (fun _ _ _ _ _ _ _ _ => trivial) safe trivial fits

end

variable {item : Parser α}

theorem tight_parenthesized (h : Extends Z item) (what : String) : Tight Z (parenthesized item what) := by
  refine extends_newlines.tight fun _ => Grows.tight (show Extends Z _ from ?_) fun items =>
    (tight_expect rfl).bind fun _ => grows_pure
  refine Grows.iterate (fun _ => false) (fun _ => (spans_atKind rfl).next fun _ => .ite grows_pure ?_)
    (.inr (.inr fun _ => rfl)) _
  refine h.next fun _ => extends_newlines.next fun _ => (spans_take rfl).next fun _ => ?_
  exact .ite (extends_newlines.next fun _ => grows_pure) grows_pure

theorem spans_after? (inner : kind.isInner = true) (h : Spans Z item) : Spans Z (after? kind item) :=
  (spans_take inner).bind fun _ => .ite (h.bind fun _ => grows_pure) grows_pure

end

end Parser

end PhaseLang
