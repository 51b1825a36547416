import PhaseLang.Proofs.Outcomes
import PhaseLang.Proofs.Token.Depth

/-!
# Strings and braces read with a stack

A reader of tokens who keeps the open strings and braces on a stack needs nothing else to follow the scanner: the stack
mirrors the scanner's holes. So the tokens alone decide which interpolations are too deep, and a scan without
diagnostics closes what it opens in the right order (`scan_nesting`).
-/

namespace PhaseLang

/-! ## The stack -/

/-- What is open: a string, known by its first fragment, or a brace. -/
inductive Enclosure where
  | string (opening : Token)
  | brace
deriving DecidableEq, Repr

namespace Enclosure

def isString : Enclosure → Bool
  | string _ => true
  | brace => false

/-- The stack after a token: the first fragment of an interrupted string opens it, the last one closes the innermost
string, and a brace opens a brace or closes the innermost one. -/
def step (stack : List Enclosure) (t : Token) : List Enclosure :=
  match t.kind with
  | .interpolation => if t.resumes then stack else string t :: stack
  | .string => if t.resumes then stack.eraseP isString else stack
  | .leftBrace => brace :: stack
  | .rightBrace => stack.eraseP (!·.isString)
  | _ => stack

/-- How many strings are open. -/
def level (stack : List Enclosure) : Nat := stack.countP isString

end Enclosure

/-- The interpolations that leave more strings open than may be. -/
def deepTokens (stack : List Enclosure) : List Token → List Token
  | [] => []
  | t :: ts =>
    let after := Enclosure.step stack t
    if t.kind = .interpolation ∧ Scanner.maxDepth < Enclosure.level after then t :: deepTokens after ts
    else deepTokens after ts

/-- `t` goes on with the string that starts with `opening`: it is read up to the quote of that string or up to the next
hole in it. -/
def Token.Continues (opening t : Token) : Prop :=
  ∃ quote content, ∃ e : Scanner.FragmentEnd, opening.lexeme.toList.head? = some quote ∧
    t.lexeme.toList = '\x7d' :: (content ++ e.mark quote) ∧ e ≠ .missing ∧ (e = .quote ↔ t.kind = .string) ∧
    Scanner.fragmentLength quote (content ++ e.mark quote) = (content.length, e)

/-- A fragment that resumes a string meets that string on top of the stack, and a brace that closes inside a string
meets an open brace there. -/
structure Enclosure.Fits (stack : List Enclosure) (t : Token) : Prop where
  own : t.resumes → ∃ opening outer, stack = .string opening :: outer ∧ opening.Continues t
  braces : t.kind = .rightBrace → stack.any isString → stack.head? = some .brace

/-- Every token fits, and no string is left open. -/
def WellNested (stack : List Enclosure) : List Token → Prop
  | [] => stack.any Enclosure.isString = false
  | t :: ts => Enclosure.Fits stack t ∧ WellNested (Enclosure.step stack t) ts

/-! ## The stack mirrors the holes -/

namespace Scanner

open Enclosure (step)

/-- The stack that a reader has where the scanner has these holes: above each string stand the braces of its hole. -/
inductive Mirrors : List Enclosure → List Hole → Prop
  | code {n : Nat} : Mirrors (List.replicate n .brace) []
  | hole {n : Nat} {quote : Char} {opening : Token} {stack : List Enclosure} {holes : List Hole} (h : isQuote quote)
      (starts : opening.lexeme.toList.head? = some quote) (outer : Mirrors stack holes) :
      Mirrors (List.replicate n .brace ++ .string opening :: stack) (⟨quote, n⟩ :: holes)

variable {stack : List Enclosure} {holes : List Hole}

theorem Mirrors.level_eq (m : Mirrors stack holes) : Enclosure.level stack = holes.length := by
  have braces (n : Nat) : Enclosure.level (List.replicate n .brace) = 0 := by simp [Enclosure.level, Enclosure.isString]
  induction m with
  | code => exact braces _
  | hole _ _ _ ih =>
    rw [Enclosure.level, List.countP_append, List.countP_cons_of_pos rfl, List.length_cons, ← ih]
    exact (congrArg (· + _) (braces _)).trans (Nat.zero_add _)

theorem Mirrors.any_isString (m : Mirrors stack holes) : stack.any Enclosure.isString = !holes.isEmpty := by
  cases m with
  | code => simp [Enclosure.isString]
  | hole => simp [Enclosure.isString]

/-- The innermost string, when no brace is open in its hole. -/
theorem Mirrors.resumed {quote : Char} (m : Mirrors stack (⟨quote, 0⟩ :: holes)) :
    ∃ opening outer, stack = .string opening :: outer ∧ isQuote quote ∧ opening.lexeme.toList.head? = some quote ∧
      Mirrors outer holes := by
  cases m with
  | hole h starts outer => exact ⟨_, _, rfl, h, starts, outer⟩

theorem Mirrors.leftBrace (m : Mirrors stack holes) : Mirrors (.brace :: stack) (countBrace .leftBrace holes) := by
  cases m with
  | code =>
    rw [← List.replicate_succ]
    exact .code
  | hole h starts outer =>
    rw [← List.cons_append, ← List.replicate_succ]
    exact .hole h starts outer

theorem Mirrors.rightBrace (m : Mirrors stack holes) (open' : ∀ quote outer, holes ≠ ⟨quote, 0⟩ :: outer) :
    Mirrors (stack.eraseP (!·.isString)) (countBrace .rightBrace holes) ∧
      (stack.any Enclosure.isString → stack.head? = some .brace) := by
  cases m with
  | @code n =>
    cases n with
    | zero => exact ⟨.code (n := 0), by simp⟩
    | succ n =>
      rw [List.replicate_succ, List.eraseP_cons_of_pos rfl]
      exact ⟨.code, by simp⟩
  | @hole n quote _ _ holes h starts outer =>
    cases n with
    | zero => exact absurd rfl (open' quote holes)
    | succ n =>
      rw [List.replicate_succ, List.cons_append, List.eraseP_cons_of_pos rfl]
      exact ⟨.hole h starts outer, by simp⟩

theorem countBrace_of_ne {kind : TokenKind} (left : kind ≠ .leftBrace) (right : kind ≠ .rightBrace)
    (holes : List Hole) : countBrace kind holes = holes := by
  cases holes with
  | nil => rfl
  | cons h hs =>
    cases kind <;> first | rfl | exact absurd rfl left | exact absurd rfl right

/-! ## One step -/

/-- What one token tells the reader, and what the scanner does there. -/
structure Told (stack : List Enclosure) (t : Token) (s : Step) : Prop where
  mirrors : Mirrors (step stack t) s.holes
  fits : Enclosure.Fits stack t
  deep : s.problem = if t.kind = .interpolation ∧ maxDepth < Enclosure.level (step stack t)
    then some .interpolationTooDeep else none

/-- A token that is no fragment: what it does to the stack is what it does to the braces of the innermost hole. -/
theorem Mirrors.told_code (m : Mirrors stack holes) {t : Token} {s : Step} (string : t.kind ≠ .string)
    (interpolation : t.kind ≠ .interpolation) (after : s.holes = countBrace t.kind holes) (silent : s.problem = none)
    (brace : t.kind = .rightBrace → ∀ quote outer, holes ≠ ⟨quote, 0⟩ :: outer) : Told stack t s := by
  have noFragment : ¬ t.resumes := by simp [Token.resumes, Token.isFragment, string, interpolation]
  have quiet : s.problem = if t.kind = .interpolation ∧ maxDepth < Enclosure.level (step stack t)
      then some .interpolationTooDeep else none := by rw [silent, if_neg fun deep => interpolation deep.1]
  by_cases left : t.kind = .leftBrace
  · refine ⟨?_, ⟨fun h => absurd h noFragment, by simp [left]⟩, quiet⟩
    rw [after, step, left]
    exact m.leftBrace
  by_cases right : t.kind = .rightBrace
  · obtain ⟨mirrors, top⟩ := m.rightBrace (brace right)
    refine ⟨?_, ⟨fun h => absurd h noFragment, fun _ => top⟩, quiet⟩
    rw [after, step, right]
    exact mirrors
  · refine ⟨?_, ⟨fun h => absurd h noFragment, fun h => absurd h right⟩, quiet⟩
    have same : step stack t = stack := by
      unfold step
      split <;> simp_all
    rw [after, same, countBrace_of_ne left right]
    exact m

theorem Code.brace {c : Char} {cs : List Char} {s : Step} (h : Code holes c cs s) (brace : s.kind = some .rightBrace) :
    c = '\x7d' := by
  cases h with
  | word =>
    have mem := wordKind_mem
    exact absurd (Option.some.inj brace ▸ mem _ _) (by decide)
  | symbol _ _ found =>
    cases brace
    have spelled : ∀ entry ∈ symbolTable, entry.2 = .rightBrace → entry.1.head? = some '\x7d' := by decide
    simpa using spelled _ (List.mem_of_find?_eq_some found) rfl
  | _ => simp at brace

theorem Code.holes_eq {c : Char} {cs : List Char} {s : Step} (h : Code holes c cs s) :
    (s.kind = none → s.holes = holes ∧ s.problem ≠ some .interpolationTooDeep) ∧
      ∀ kind, s.kind = some kind → s.holes = countBrace kind holes ∧ s.problem = none := by
  cases h <;> simp [countBrace_of_ne]

/-- The fragment `t` is read, with what is left of the string on the stack if it is not the first. -/
theorem Opens.told {c quote : Char} {outer : List Hole} (o : Opens holes c quote outer) (m : Mirrors stack holes)
    {t : Token} {content rest : List Char} {e : FragmentEnd}
    (lexeme : t.lexeme = String.ofList (c :: (content ++ e.mark quote)))
    (h : fragmentLength quote (content ++ e.mark quote ++ rest) = (content.length, e)) {s : Step}
    (shape : e = .quote ∧ t.kind = .string ∧ s.holes = outer ∧ s.problem = none ∨
      e = .hole ∧ t.kind = .interpolation ∧ s.holes = ⟨quote, 0⟩ :: outer ∧
        s.problem = if maxDepth < outer.length + 1 then some .interpolationTooDeep else none) :
    Told stack t s := by
  have head : t.lexeme.toList.head? = some c := by simp [lexeme]
  have fragment : t.isFragment := by rcases shape with ⟨_, kind, _⟩ | ⟨_, kind, _⟩ <;> simp [Token.isFragment, kind]
  have noBrace : t.kind ≠ .rightBrace := by rcases shape with ⟨_, kind, _⟩ | ⟨_, kind, _⟩ <;> simp [kind]
  cases o with
  | quote hq =>
    have first : t.resumes = false := Token.not_resumes_of_starts (by simp [Token.starts, fragment, head, hq])
    have fits : Enclosure.Fits stack t := ⟨by simp [first], fun h => absurd h noBrace⟩
    rcases shape with ⟨rfl, kind, after, silent⟩ | ⟨rfl, kind, after, problem⟩
    · have same : step stack t = stack := by simp [step, kind, first]
      exact ⟨by rwa [after, same], fits, by rw [silent, if_neg (by simp [kind])]⟩
    · have pushed : step stack t = .string t :: stack := by simp [step, kind, first]
      have mirrors : Mirrors (step stack t) s.holes := by
        rw [after, pushed]
        exact .hole (n := 0) hq head m
      refine ⟨mirrors, fits, ?_⟩
      rw [problem, mirrors.level_eq, after]
      simp [kind]
  | @resume quote outer =>
    obtain ⟨opening, below, rfl, hq, starts, more⟩ := m.resumed
    have resumes : t.resumes := by simp [Token.resumes, fragment, head]
    have plain : quote ≠ '$' := by
      rintro rfl
      exact absurd hq (by decide)
    have continues : opening.Continues t := by
      refine ⟨quote, content, e, starts, by simp [lexeme], ?_, ?_, ?_⟩
      · rcases shape with ⟨rfl, _⟩ | ⟨rfl, _⟩ <;> simp
      · rcases shape with ⟨rfl, kind, _⟩ | ⟨rfl, kind, _⟩ <;> simp [kind]
      · have closed := fragmentLength_tail plain (by rcases shape with ⟨rfl, _⟩ | ⟨rfl, _⟩ <;> simp) h []
        rwa [List.append_nil] at closed
    have fits : Enclosure.Fits (.string opening :: below) t :=
      ⟨fun _ => ⟨opening, below, rfl, continues⟩, fun h => absurd h noBrace⟩
    rcases shape with ⟨rfl, kind, after, silent⟩ | ⟨rfl, kind, after, problem⟩
    · have popped : step (.string opening :: below) t = below := by
        simp only [step, kind, resumes, if_true]
        exact List.eraseP_cons_of_pos rfl
      exact ⟨by rwa [after, popped], fits, by rw [silent, if_neg (by simp [kind])]⟩
    · have same : step (.string opening :: below) t = .string opening :: below := by simp [step, kind, resumes]
      have mirrors : Mirrors (step (.string opening :: below) t) s.holes := by rwa [after, same]
      refine ⟨mirrors, fits, ?_⟩
      rw [problem, mirrors.level_eq, after]
      simp [kind]

theorem Lexes.told {cs : List Char} {s : Step} (l : Lexes holes cs s) (m : Mirrors stack holes) {file : String}
    {lo : Nat} {t : Token} (found : s.token? file lo = some t) : Told stack t s := by
  obtain ⟨kind, hkind, rfl⟩ := Option.map_eq_some_iff.mp found
  cases l with
  | code out h =>
    obtain ⟨string, interpolation, _⟩ := h.not_fragment
    obtain ⟨after, silent⟩ := h.holes_eq.2 kind hkind
    rw [hkind] at string interpolation
    exact m.told_code (by simpa using string) (by simpa using interpolation) after silent
      fun brace => out.2 (h.brace (hkind.trans (congrArg some brace)))
  | string o h =>
    cases hkind
    exact o.told m (e := .quote) rfl h (.inl ⟨rfl, rfl, rfl, rfl⟩)
  | hole o h =>
    cases hkind
    exact o.told m (e := .hole) rfl h (.inr ⟨rfl, rfl, rfl, rfl⟩)
  | missing => simp at hkind

/-- A step without a token leaves the holes as they are, or the text ends in a string. -/
theorem Lexes.skips {cs : List Char} {s : Step} (l : Lexes holes cs s) (skips : s.kind = none) :
    s.holes = holes ∧ s.problem ≠ some .interpolationTooDeep ∨ s.rest = [] ∧ s.problem = some .unterminatedString := by
  cases l with
  | code out h => exact .inl (h.holes_eq.1 skips)
  | string => simp at skips
  | hole => simp at skips
  | missing => exact .inr ⟨rfl, rfl⟩

/-! ## Whole scans -/

variable {cs : List Char} {steps : List Step} {final : List Hole}

theorem Run.steps_eq_nil (r : Run holes [] steps final) : steps = [] := by
  cases r with
  | done => rfl
  | step l => exact absurd l.rest_lt (by simp)

def isTooDeep (d : Diagnostic) : Bool := d.message = ScanProblem.interpolationTooDeep.message

theorem isTooDeep_message {p : ScanProblem} {pos : Position} :
    isTooDeep ⟨pos, p.message⟩ = true ↔ p = .interpolationTooDeep := by
  refine ⟨fun same => ?_, fun h => by simp [isTooDeep, h]⟩
  have front := p.opening_prefix
  rw [show p.message = _ from of_decide_eq_true same] at front
  cases p with
  | interpolationTooDeep => rfl
  | unterminatedString => exact absurd front (by decide)
  | unexpectedCharacter c => exact absurd front (show ¬ "Unexpected character: ".toList <+: _ by decide)

theorem finish_quiet (file : String) (mark lo : Nat) (holes : List Hole) :
    (finish file mark lo holes).diagnostics.filter isTooDeep = [] := by
  rw [List.filter_eq_nil_iff]
  intro d hd
  obtain ⟨_, _, rfl⟩ := List.mem_map.mp hd
  simp [isTooDeep_message]

/-- A scan complains of depth at the deep tokens, in their order, and nowhere else. -/
theorem Run.deep (r : Run holes cs steps final) (m : Mirrors stack holes) (file : String) (n mark lo : Nat)
    (h : cs.length ≤ n) (stop : Position) :
    (scanFrom file n mark lo holes cs).diagnostics.filter isTooDeep =
      (deepTokens stack (tokensOf file lo steps ++ [⟨.eof, "", none, stop⟩])).map fun t =>
        ⟨t.pos, ScanProblem.interpolationTooDeep.message⟩ := by
  induction r generalizing stack n mark lo with
  | done => cases n <;> simpa [tokensOf, deepTokens, scanFrom] using finish_quiet file mark lo _
  | @step holes final cs s steps l more ih =>
    obtain ⟨k, le, next⟩ := l.scanFrom_eq file mark lo h
    rw [next]
    simp only [List.filter_append, tokensOf]
    cases found : s.token? file lo with
    | some t =>
      have told := l.told m found
      obtain ⟨kind, hkind, rfl⟩ := Option.map_eq_some_iff.mp found
      rw [ih told.mirrors k lo _ le]
      simp only [Step.next, Option.toList_some, List.cons_append, List.nil_append, deepTokens, Step.diagnostic?,
        told.deep]
      split
      · simp [isTooDeep]
      · simp
    | none =>
      rcases l.skips (Option.map_eq_none_iff.mp found) with ⟨same, shallow⟩ | ⟨ends, problem⟩
      · rw [ih (same ▸ m) k lo _ le]
        cases problem : s.problem with
        | none => simp [Step.diagnostic?, problem, Step.next]
        | some p =>
          have other : p ≠ .interpolationTooDeep := fun deep => shallow (problem.trans (congrArg some deep))
          simp [Step.diagnostic?, problem, Step.next, isTooDeep_message, other]
      · rw [ends] at more ⊢
        have last (at' : Nat) : scanFrom file k lo at' s.holes [] = finish file lo at' s.holes := by
          cases k <;> rfl
        rw [last, finish_quiet, more.steps_eq_nil]
        simp [Step.diagnostic?, problem, tokensOf, deepTokens, isTooDeep_message]

/-- A scan without problems fits the stack, token by token. -/
theorem Run.wellNested (r : Run holes cs steps final) (m : Mirrors stack holes)
    (clean : ∀ s ∈ steps, s.problem = none) (closed : final = []) (file : String) (lo : Nat) (stop : Position) :
    WellNested stack (tokensOf file lo steps ++ [⟨.eof, "", none, stop⟩]) := by
  induction r generalizing stack lo with
  | done =>
    subst closed
    exact ⟨⟨by simp [Token.resumes, Token.isFragment], by simp⟩, m.any_isString⟩
  | @step holes final cs s steps l more ih =>
    have silent := clean s (List.mem_cons_self ..)
    have later := fun s hs => clean s (List.mem_cons_of_mem _ hs)
    rw [tokensOf]
    cases found : s.token? file lo with
    | some t =>
      have told := l.told m found
      exact ⟨told.fits, ih told.mirrors later closed _⟩
    | none =>
      rcases l.skips (Option.map_eq_none_iff.mp found) with ⟨same, _⟩ | ⟨_, problem⟩
      · exact ih (same ▸ m) later closed _
      · simp [problem] at silent

end Scanner

/-- Read with a stack of open strings and braces, the tokens of any text say where interpolations are too deep: the
diagnostics about that are those at the interpolations that leave more than `maxDepth` strings open, one for each. If
nothing was reported, every fragment that resumes a string meets its own string on top of the stack, every brace that
closes inside a string meets a brace opened in the same hole, and no string is left open. -/
theorem scan_nesting (source file : String) :
    ((scan source file).diagnostics.filter fun d => d.message = ScanProblem.interpolationTooDeep.message) =
        ((deepTokens [] (scan source file).tokens).map fun t =>
          ⟨t.pos, ScanProblem.interpolationTooDeep.message⟩) ∧
      ((scan source file).diagnostics = [] → WellNested [] (scan source file).tokens) := by
  obtain ⟨steps, final, run⟩ := Scanner.exists_scan_run source
  have mirrors : Scanner.Mirrors [] [] := .code (n := 0)
  refine ⟨?_, fun clean => ?_⟩
  · rw [run.scan_tokens]
    exact run.deep mirrors file _ 0 0 (Nat.le_refl _) _
  · obtain ⟨problems, closed⟩ := (run.scan_diagnostics file).mp clean
    rw [run.scan_tokens]
    exact run.wellNested mirrors problems closed file 0 _

end PhaseLang
