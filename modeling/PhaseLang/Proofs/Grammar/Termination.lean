import PhaseLang.Grammar.Program
import PhaseLang.Proofs.Grammar.BuildingDeclarations

/-!
# Parsing ends

The rules close over themselves: the rules for rows of fewer than `n` tokens move on as long as
fewer than `n` tokens are left. So no loop and no recursion of the grammar ever uses up its bound.
-/

namespace PhaseLang

open PhaseLang.Parser

namespace Cursor

def ofRow (ts : List Token) (eof : Token) (nextId : Nat) : Cursor :=
  { previous := (ts ++ [eof]).headD eof, rest := ts, eof, nextId }

@[simp] theorem ofRow_rest (ts : List Token) (eof : Token) (nextId : Nat) : (ofRow ts eof nextId).rest = ts := rfl

theorem ofTokens?_row {ts : List Token} {eof : Token} (last : eof.kind = .eof) (only : ∀ t ∈ ts, t.kind ≠ .eof)
    (nextId : Nat) : ofTokens? (ts ++ [eof]) nextId = some (ofRow ts eof nextId) := by
  have rest : (ts ++ [eof]).takeWhile (·.kind ≠ .eof) = ts := by
    rw [List.takeWhile_append_of_pos (by simpa using only)]
    simp [last]
  have found : (ts ++ [eof]).find? (·.kind = .eof) = some eof := by
    rw [List.find?_append, List.find?_eq_none.mpr (by simpa using only)]
    simp [last]
  simp only [ofTokens?, List.getLast?_append, List.getLast?_singleton, Option.some_or, rest, found,
    Option.getD_some, ofRow]

theorem ofTokens?_append {ts : List Token} {eof : Token} (last : eof.kind = .eof)
    (only : ∀ t ∈ ts, t.kind ≠ .eof) (nextId : Nat) :
    ∃ previous, ofTokens? (ts ++ [eof]) nextId = some { previous, rest := ts, eof, nextId } :=
  ⟨_, ofTokens?_row last only nextId⟩

end Cursor

/-- A program comes off the bench that parsing a row starts from. -/
theorem parse_steps {ts : List Token} {eof : Token} (last : eof.kind = .eof) (only : ∀ t ∈ ts, t.kind ≠ .eof)
    {nextId next : Nat} {program : List Stmt} (parsed : parse (ts ++ [eof]) nextId = .ok (program, next)) :
    ∃ c, c.nextId = next ∧ Steps [] (.ofRow ts eof nextId) (program.map .stmt) c := by
  have start := Cursor.ofTokens?_row last only nextId
  have ready : Course.front.Ready (.ofRow ts eof nextId) := Course.front_ready last only
  obtain ⟨c, count, laid⟩ := (parse_outcome start ready fun _ _ _ _ _ _ _ => trivial).1 program next parsed
  exact ⟨c, count, laid.steps⟩

/-! ## Along any row of tokens -/

namespace Parser

variable {α : Type}

/-- A run of `p` from `c` gives what satisfies `Q`, or fails for another reason than its bounds. -/
def ends (p : Parser α) (Q : α → Cursor → Prop) (c : Cursor) : Prop :=
  match p c with
  | .ok (a, c') => Q a c'
  | .error e => e.problem ≠ .stalled

/-- A run of `p` from `c` reads a front part of the tokens left and leaves the end alone, or it finds a
violation; it does not run into a bound. -/
def Finishes (p : Parser α) (c : Cursor) : Prop :=
  ends p (fun _ c' => c'.eof = c.eof ∧ ∃ read, c.rest = read ++ c'.rest) c

def Advances (p : Parser α) (c : Cursor) : Prop :=
  ends p (fun _ c' => c'.eof = c.eof ∧ ∃ t read, c.rest = t :: read ++ c'.rest) c

variable {H : Cursor → Prop} {n : Nat} {ks : List Workpiece} {p : Parser α} {P : α → Prop} {A : α → List Workpiece}
  {m : α → Bool}
variable {c : Cursor}

theorem ends_of_runs {Q R : α → Cursor → Prop} (h : runs p Q (Course.front.Fails n c) c) (lt : c.rest.length < n)
    (hQ : ∀ a c', Q a c' → R a c') : ends p R c :=
  runs_weaken h hQ fun _ fails stalled => Nat.not_le_of_lt lt (fails.bound stalled)

theorem BuildsIf.finishes (h : BuildsIf Course.front H m n ks p P A) (ready : Course.front.Ready c) (hc : H c)
    (lt : c.rest.length < n) : Finishes p c := by
  refine ends_of_runs (h.lays [] c ready hc) lt fun a c' ha => ?_
  obtain ⟨read, rest⟩ := ha.1.way.leads lt
  exact ⟨ha.1.way.eof, read, rest.symm⟩

theorem BuildsIf.advances (h : BuildsIf Course.front H (fun _ => true) n ks p P A) (ready : Course.front.Ready c)
    (hc : H c) (lt : c.rest.length < n) : Advances p c := by
  refine ends_of_runs (h.lays [] c ready hc) lt fun a c' ha => ?_
  obtain ⟨read, rest⟩ := ha.1.way.leads lt
  have moved := ha.1.moved rfl
  cases read with
  | nil => simp [← rest] at moved
  | cons t read => exact ⟨ha.1.way.eof, t, read, rest.symm⟩

end Parser

namespace Grammar

structure MovesOn (r : Rules) (c : Cursor) : Prop where
  declaration : Advances (declaration r) c
  statement : Advances (statement r) c
  expression : Advances (expression r) c
  member : Advances (member r) c
  typePath : ∀ allowNullable, Advances (typePath r allowNullable) c
  useTarget : Advances useTarget c
  program : Finishes (program r) c
  block : Finishes (block r) c
  inNamespace : c.peek.kind = .namespaceKw → Finishes (namespaceDeclaration r) c
  classBody : Finishes (classBody r) c
  arguments : Finishes (arguments r) c
  params : ∀ allowPromotion, Finishes (params r allowPromotion) c
  typePaths : ∀ allowNullable, Finishes (separated (Grammar.typePath r allowNullable)) c
  attributes : Finishes (attributes r) c
  usePath : Finishes usePath c
  valueCases : ∀ overString, Finishes (enumCases (valueCase r overString)) c
  factoryCases : ∀ enumName, Finishes (enumCases (factoryCase r enumName)) c
  switch : Finishes (switchStatement r) c
  choice : Finishes (choice r) c
  property : ∀ type, Finishes (property r type) c
  interpolation : ∀ first, Finishes (interpolation r first) c
  template : ∀ tag, Finishes (taggedTemplate r tag) c

theorem upTo_movesOn {n : Nat} {c : Cursor} (ready : Course.front.Ready c) (lt : c.rest.length < n) :
    MovesOn (Rules.upTo n) c := by
  have hr := Rules.upTo_front n
  constructor
  case declaration => exact (declaration_builds hr).advances ready trivial (by omega)
  case statement => exact (statement_builds hr).advances ready trivial (by omega)
  case expression => exact (expression_builds hr).advances ready trivial (by omega)
  case member => exact (member_builds hr).advances ready trivial (by omega)
  case typePath => exact fun b => (typePath_builds hr b).advances ready trivial (by omega)
  case useTarget => exact (useTarget_builds (n := n)).advances ready trivial (by omega)
  case program => exact (program_builds hr).finishes ready trivial lt
  case block => exact (block_builds hr).finishes ready trivial lt
  case inNamespace =>
    intro kind
    exact (namespaceDeclaration_builds hr trivial (by rw [kind]; rfl)).finishes ready rfl (by omega)
  case classBody => exact (classBody_builds hr).finishes ready trivial lt
  case arguments => exact (arguments_builds hr).finishes ready trivial lt
  case params => exact fun b => (params_builds hr b).finishes ready trivial lt
  case typePaths => exact fun b =>
    (builds_separated (H := fun _ => True) (fun _ => rfl) (typePath_builds hr b)).finishes ready trivial (by omega)
  case attributes => exact (attributes_builds hr).finishes ready trivial (by omega)
  case usePath => exact usePath_builds.finishes ready trivial lt
  case valueCases => exact fun b => (enumCases_builds (valueCase_builds hr b)).finishes ready trivial lt
  case factoryCases => exact fun name => (enumCases_builds (factoryCase_builds hr name)).finishes ready trivial lt
  case switch => exact (switchStatement_builds hr).finishes ready trivial lt
  case choice => exact (choice_builds hr).finishes ready trivial lt
  case property => exact fun type => (property_builds hr type).finishes ready trivial lt
  case interpolation =>
    intro first
    refine ends_of_runs (interpolation_runs hr [] first ready) lt fun e c' behind => ?_
    obtain ⟨us, _, leads, tail⟩ := behind.spliced lt
    obtain ⟨read, rest⟩ := (Course.front.stitched tail).trans leads
    exact ⟨behind.eof, read, rest.symm⟩
  case template => exact fun tag => (taggedTemplate_builds hr tag).finishes ready trivial lt

end Grammar

/-- Whatever row of tokens ends with its only `eof`, parsing gives statements or a violation: no loop
and no recursion runs into a bound. From wherever in the row, the rules that have to read a token do,
no rule goes back or past the end, and every loop ends. -/
theorem parse_ends {ts : List Token} {eof : Token} (last : eof.kind = .eof) (only : ∀ t ∈ ts, t.kind ≠ .eof)
    (nextId : Nat) :
    (∀ e, parse (ts ++ [eof]) nextId = .error e → e.problem ≠ .stalled) ∧
    ∀ n c, c.eof = eof → c.rest <:+ ts → c.rest.length < n → Grammar.MovesOn (Rules.upTo n) c := by
  constructor
  · intro e failed
    obtain ⟨previous, start⟩ := Cursor.ofTokens?_append last only nextId
    generalize hc : ({ previous, rest := ts, eof, nextId } : Cursor) = c at start
    have rest : c.rest = ts := hc ▸ rfl
    have ready : Course.front.Ready c := Course.front_ready (hc ▸ last) (rest ▸ only)
    have finished := (Grammar.upTo_movesOn ready (Nat.lt_succ_self _)).program
    unfold parse at failed
    rw [start] at failed
    dsimp only at failed
    split at failed <;> cases failed
    rename_i run
    unfold Finishes ends at finished
    rw [StateT.run] at run
    rw [run] at finished
    exact finished
  · rintro n c rfl suffix lt
    exact Grammar.upTo_movesOn (Course.front_ready last fun t ht => only t (suffix.mem ht)) lt

/-- A string that is never resumed, in a block that is never closed. -/
theorem parse_ends_unclosed :
    let brace : Token := ⟨.leftBrace, "\x7b", none, ⟨0, 1, ""⟩⟩
    let fragment : Token := ⟨.interpolation, "\"a$\x7b", some "a", ⟨1, 5, ""⟩⟩
    let eof : Token := ⟨.eof, "", none, ⟨5, 5, ""⟩⟩
    (∀ t ∈ [brace, fragment], t.kind ≠ .eof) ∧
      (∃ e, parse ([brace, fragment] ++ [eof]) 0 = .error e ∧ e.problem ≠ .stalled) ∧
      Grammar.MovesOn (Rules.upTo 3) ⟨brace, [brace, fragment], eof, false, false, 0⟩ := by
  intro brace fragment eof
  have only : ∀ t ∈ [brace, fragment], t.kind ≠ .eof := by decide
  obtain ⟨outcome, rules⟩ := @parse_ends _ eof rfl only 0
  have failed : parse ([brace, fragment] ++ [eof]) 0 = .error ⟨⟨5, 5, ""⟩, .unexpectedEnd⟩ := by rfl
  exact ⟨only, ⟨_, failed, outcome _ failed⟩, rules 3 _ rfl (List.suffix_refl _) (by decide)⟩

end PhaseLang
