import Mathlib.Data.List.Find
import PhaseLang.Proofs.Token.Respacing

/-!
# The text of a comment

A comment ends before a NUL character, and what follows the NUL on its line is scanned as program
text. What stands in a comment before its first NUL changes neither the tokens nor the messages,
wherever the comment stands outside strings.
-/

namespace PhaseLang

variable {steps : List Step}

namespace Scanner

/-! ## Steps before a slash -/

theorem fractionLength_append (after : List Char) {tail : List Char}
    (ht : ∀ d ∈ tail.head?, isDigit d = false ∧ d ≠ '.') :
    fractionLength (after ++ tail) = fractionLength after := by
  have digits (more : List Char) : (more ++ tail).takeWhile isDigit = more.takeWhile isDigit := by
    obtain ⟨front, back, rfl, hf, hb⟩ := exists_span isDigit more
    rw [takeWhile_span hf hb, List.append_assoc]
    apply takeWhile_span hf
    cases back with
    | nil => exact fun d hd => (ht d hd).1
    | cons => exact hb
  have other (c : Char) (cs : List Char) (hc : c ≠ '.') : fractionLength (c :: cs) = 0 := by
    unfold fractionLength
    split
    · rename_i h
      exact absurd (List.cons.inj h).1 hc
    · rfl
  cases after with
  | nil =>
    cases tail with
    | nil => rfl
    | cons d tail => exact other d tail (ht d rfl).2
  | cons c after =>
    by_cases hc : c = '.'
    · subst hc
      cases after with
      | cons d more => simp [fractionLength, digits]
      | nil =>
        cases tail with
        | nil => rfl
        | cons d tail => simp [fractionLength, (ht d rfl).1]
    · rw [List.cons_append, other _ _ hc, other _ _ hc]

theorem numberLength_append (cs : List Char) {tail : List Char}
    (ht : ∀ d ∈ tail.head?, isDigit d = false ∧ d ≠ '.') : numberLength (cs ++ tail) = numberLength cs := by
  obtain ⟨whole, after, rfl, hw, ha⟩ := exists_span isDigit cs
  have head : ∀ d ∈ (after ++ tail).head?, isDigit d = false := by
    cases after with
    | nil => exact fun d hd => (ht d hd).1
    | cons c after => exact ha
  rw [List.append_assoc, numberLength_span hw head, numberLength_span hw ha, fractionLength_append after ht]

/-- A symbol other than `/` holds no slash. -/
theorem symbol?_append (c : Char) (cs more : List Char) : symbol? (c :: cs ++ '/' :: more) = symbol? (c :: cs) := by
  have slashes : ∀ entry ∈ symbolTable, '/' ∈ entry.1 → entry.1.length = 1 := by decide
  have same : ∀ entry ∈ symbolTable, entry.1.isPrefixOf (c :: cs ++ '/' :: more) = entry.1.isPrefixOf (c :: cs) := by
    intro entry hmem
    rw [Bool.eq_iff_iff, List.isPrefixOf_iff_prefix, List.isPrefixOf_iff_prefix]
    constructor
    · intro hpre
      rcases List.prefix_or_prefix_of_prefix hpre (List.prefix_append (c :: cs) ('/' :: more)) with short | long
      · exact short
      · obtain ⟨rest, hrest⟩ := long
        cases rest with
        | nil => simp [← hrest]
        | cons d rest =>
          rw [← hrest, List.prefix_append_right_inj] at hpre
          obtain ⟨_, heq⟩ := hpre
          obtain rfl := (List.cons.inj heq).1
          have one := slashes entry hmem (by simp [← hrest])
          simp [← hrest] at one
    · intro hpre
      exact hpre.trans (List.prefix_append _ _)
  unfold symbol?
  exact List.find?_congr same

theorem wordKind_slash (word rest more : List Char) :
    wordKind word (rest ++ '/' :: more).head? = wordKind word rest.head? := by
  cases rest with
  | nil => rfl
  | cons => rfl

/-- Blank lines take up a whole text and go on behind it, or they end in it. -/
def Settled (inComment : Bool) (cs : List Char) : Prop :=
  (∃ inside, ∀ tail, blankLength inComment (cs ++ tail) = cs.length + blankLength inside tail) ∨
    ∀ tail, blankLength inComment (cs ++ tail) = blankLength inComment cs

variable {cs : List Char}

theorem Settled.cons {inComment inside : Bool} {c : Char} (h : Settled inside cs)
    (step : ∀ tail, blankLength inComment (c :: cs ++ tail) = 1 + blankLength inside (cs ++ tail)) :
    Settled inComment (c :: cs) := by
  rcases h with ⟨inside', h⟩ | h
  · refine .inl ⟨inside', fun tail => ?_⟩
    rw [step, h, List.length_cons]
    omega
  · have whole := step []
    rw [List.append_nil, List.append_nil] at whole
    exact .inr fun tail => by rw [step, h, whole]

theorem settled_of_getLast? (inComment : Bool) (cs : List Char) (slash : cs.getLast? ≠ some '/') :
    Settled inComment cs := by
  have last {c : Char} {cs : List Char} (h : (c :: cs).getLast? ≠ some '/') : cs.getLast? ≠ some '/' := by
    intro hcs
    simp [List.getLast?_cons, hcs] at h
  fun_induction blankLength inComment cs with
  | case1 inComment => exact .inl ⟨inComment, fun tail => by simp⟩
  | case2 c cs hc ih => exact (ih (last slash)).cons fun tail => by simp [blankLength, hc]
  | case3 c cs hc hend => exact .inr fun tail => by simp [blankLength, hc, hend]
  | case4 c cs hc hend ih => exact (ih (last slash)).cons fun tail => by simp [blankLength, hc, hend]
  | case5 cs ih =>
    have inner : Settled true ('/' :: cs) := (ih (last (last slash))).cons fun tail => by
      simp [blankLength, endsComment]
    refine inner.cons fun tail => ?_
    simp [blankLength, endsComment]
    omega
  | case6 c cs hslash hc ih =>
    refine (ih (last slash)).cons fun tail => ?_
    rw [List.cons_append, blankLength, if_pos hc]
    rintro more rfl -
    exact absurd hc (by decide)
  | case7 c cs hslash hc =>
    refine .inr fun tail => ?_
    rw [List.cons_append, blankLength, if_neg hc, blankLength, if_neg hc]
    · exact hslash
    · rintro more rfl hmore
      cases cs with
      | nil => simp at slash
      | cons d cs => exact hslash cs rfl (by rw [← (List.cons.inj hmore).1])

variable {text rest : List Char}

theorem blankLength_comment (inComment : Bool) (h : ∀ d ∈ text, endsComment d = false) :
    blankLength inComment ('/' :: '/' :: (text ++ rest)) = 2 + (text.length + blankLength true rest) := by
  have inside : blankLength true (text ++ rest) = text.length + blankLength true rest := by
    induction text with
    | nil => simp
    | cons d text ih =>
      rw [List.forall_mem_cons] at h
      have line : (d == '\n') = false := by
        have := h.1
        simp only [endsComment, Bool.or_eq_false_iff] at this
        exact this.1
      rw [List.cons_append, blankLength, if_neg (by simp [line]), if_neg (by simp [h.1]), ih h.2, List.length_cons]
      omega
  cases inComment with
  | false => rw [blankLength, inside]
  | true =>
    simp [blankLength, endsComment, inside]
    omega

/-! ## Texts before a comment -/

/-- The last step over a text, if it takes a comment behind the text along. -/
inductive Trails (holes : List Hole) : List Char → Step → Prop
  | comment {text : List Char} (h : ∀ d ∈ text, endsComment d = false) :
      Trails holes ('/' :: '/' :: text) { kind := none, lexeme := '/' :: '/' :: text, rest := [], holes }
  | newline {gap : List Char} {inside : Bool}
      (h : ∀ tail, blankLength false (gap ++ tail) = gap.length + blankLength inside tail) :
      Trails holes ('\n' :: gap) { kind := some .newline, lexeme := ['\n'], gap, rest := [], holes }

theorem Code.before_slash {holes : List Hole} {c : Char} {s : Step} (l : Code holes c cs s)
    (slash : (c :: cs).getLast? ≠ some '/') :
    (∀ more, Code holes c (cs ++ '/' :: more) { s with rest := s.rest ++ '/' :: more }) ∨ Trails holes (c :: cs) s := by
  have single {cs : List Char} (more : List Char) (last : (c :: cs).getLast? ≠ some '/')
      (h : (c == '/' && cs.head? == some '/') = false) :
          (c == '/' && (cs ++ '/' :: more).head? == some '/') = false := by
    cases cs with
    | nil => simpa using last
    | cons => exact h
  cases l with
  | blank h => exact .inl fun more => .blank h
  | @newline gap rest h =>
    have last : (gap ++ rest).getLast? ≠ some '/' := by
      intro hlast
      simp [List.getLast?_cons, hlast] at slash
    rcases settled_of_getLast? false _ last with ⟨inside, all⟩ | stop
    · have whole := all []
      obtain rfl : rest = [] := by simpa [h, blankLength] using whole
      rw [List.append_nil] at all ⊢
      exact .inr (.newline all)
    · refine .inl fun more => ?_
      rw [List.append_assoc]
      refine .newline ?_
      rw [← List.append_assoc, stop, h]
  | @comment text rest h stop =>
    cases rest with
    | nil =>
      rw [List.append_nil] at slash ⊢
      exact .inr (.comment h)
    | cons d rest =>
      refine .inl fun more => ?_
      rw [List.cons_append, List.append_assoc]
      exact .comment h stop
  | @number _ digits rest h length =>
    refine .inl fun more => ?_
    rw [List.append_assoc]
    refine .number h ?_
    rw [← List.append_assoc, ← List.cons_append, numberLength_append _ (by simp; decide), length]
  | @word _ word rest h part stop =>
    refine .inl fun more => ?_
    have rule : Code holes c (word ++ (rest ++ '/' :: more)) _ := .word h part (by
      cases rest with
      | nil => simp; decide
      | cons => exact stop)
    rw [wordKind_slash, ← List.append_assoc] at rule
    exact rule
  | @symbol _ text rest kind h last found =>
    refine .inl fun more => ?_
    have cut := single more slash last
    rw [List.append_assoc] at cut ⊢
    refine .symbol h cut ?_
    rw [← List.append_assoc, ← List.cons_append, symbol?_append, found]
  | stray h last missing =>
    refine .inl fun more => .stray h (single more slash last) ?_
    rw [← List.cons_append, symbol?_append, missing]

theorem Lexes.before_slash {holes : List Hole} {cs : List Char} {s : Step} (l : Lexes holes cs s) (hq : Quoted holes)
    (closed : s.problem ≠ some .unterminatedString) (slash : cs.getLast? ≠ some '/') :
    (∀ more, Lexes holes (cs ++ '/' :: more) { s with rest := s.rest ++ '/' :: more }) ∨ Trails holes cs s := by
  cases l with
  | code out l => exact (l.before_slash slash).imp_left fun h more => .code out (h more)
  | @string c quote outer content rest o h =>
    have quoted := ne_dollar_of_isQuote (hq.opens o).1
    refine .inl fun more => ?_
    simpa using Lexes.string o (fragmentLength_tail quoted (e := .quote) nofun h (rest ++ '/' :: more))
  | @hole c quote outer content rest o h =>
    have quoted := ne_dollar_of_isQuote (hq.opens o).1
    refine .inl fun more => ?_
    simpa using Lexes.hole o (fragmentLength_tail quoted (e := .hole) nofun h (rest ++ '/' :: more))
  | missing => exact absurd rfl closed

/-- From a text the scanner comes to `rest`, with the given tokens and problems on the way. -/
def Comes (holes : List Hole) (text : List Char) (seen : List (TokenKind × String × Option String))
    (problems : List ScanProblem) (final : List Hole) (rest : List Char) : Prop :=
  ∀ steps last, Run final rest steps last → ∃ steps', Run holes text steps' last ∧
    steps'.filterMap Step.spelling? = seen ++ steps.filterMap Step.spelling? ∧
    steps'.filterMap (·.problem) = problems ++ steps.filterMap (·.problem)

variable {holes final : List Hole}

theorem Lexes.comes {s : Step} {seen problems} (l : Lexes holes text s)
    (h : Comes s.holes s.rest seen problems final rest) :
    Comes holes text (s.spelling?.toList ++ seen) (s.problem.toList ++ problems) final rest := by
  intro steps last r
  obtain ⟨steps', r', same, same'⟩ := h steps last r
  refine ⟨s :: steps', .step l r', ?_, ?_⟩
  · rw [List.filterMap_cons, same]
    cases s.spelling? <;> rfl
  · rw [List.filterMap_cons, same']
    cases s.problem <;> rfl

theorem comes_refl {holes : List Hole} {text : List Char} : Comes holes text [] [] holes text :=
  fun steps _ r => ⟨steps, r, rfl, rfl⟩

theorem Run.comes_past_comment {before : List Char}
    (r : Run holes before steps final) (hq : Quoted holes) (closed : ∀ s ∈ steps, s.problem ≠ some .unterminatedString)
    (slash : before.getLast? ≠ some '/') {rest : List Char} (stop : ∀ d ∈ rest.head?, endsComment d) :
    ∃ seen problems n, (rest.head? = some '\x00' → n = 0) ∧
      ∀ text, (∀ d ∈ text, endsComment d = false) →
        Comes holes (before ++ '/' :: '/' :: (text ++ rest)) seen problems final (rest.drop n) := by
  induction r with
  | @done holes =>
    refine ⟨[], [], 0, fun _ => rfl, fun text h => ?_⟩
    exact Lexes.comes (.code ⟨by decide, by simp⟩ (.comment h stop)) comes_refl
  | @step holes final before s steps l more ih =>
    rw [List.forall_mem_cons] at closed
    rcases l.before_slash hq closed.1 slash with same | trails
    · have last : s.rest.getLast? ≠ some '/' := by
        intro hlast
        rw [l.tiles, List.getLast?_append, hlast] at slash
        simp at slash
      obtain ⟨seen, problems, n, nul, h⟩ := ih (l.quoted hq) closed.2 last
      exact ⟨s.spelling?.toList ++ seen, s.problem.toList ++ problems, n, nul, fun text clean =>
        (same _).comes (h text clean)⟩
    · have ended : s.rest = [] := by cases trails <;> rfl
      obtain rfl : final = s.holes := by
        rw [ended] at more
        cases more with
        | done => rfl
        | step l => cases l
      cases trails with
      | @comment front h =>
        refine ⟨[], [], 0, fun _ => rfl, fun text clean => ?_⟩
        have whole : ∀ d ∈ front ++ '/' :: '/' :: text, endsComment d = false := by
          simp only [List.forall_mem_append, List.forall_mem_cons]
          exact ⟨h, by decide, by decide, clean⟩
        have step : Lexes holes _ _ := .code ⟨by decide, by simp⟩ (.comment whole stop)
        simpa [Step.spelling?] using step.comes comes_refl
      | @newline gap inside h =>
        have lines (text : List Char) (clean : ∀ d ∈ text, endsComment d = false) :
            blankLength false ((gap ++ '/' :: '/' :: (text ++ rest.take (blankLength true rest))) ++
              rest.drop (blankLength true rest)) =
              (gap ++ '/' :: '/' :: (text ++ rest.take (blankLength true rest))).length := by
          have fits := blankLength_le true rest
          simp only [List.append_assoc, List.cons_append, List.take_append_drop]
          rw [h, blankLength_comment _ clean]
          simp
          omega
        refine ⟨[(.newline, "\n", none)], [], blankLength true rest, fun nul => ?_, fun text clean => ?_⟩
        · obtain ⟨more, rfl⟩ := List.head?_eq_some_iff.mp nul
          rfl
        · have step : Lexes holes _ _ := .code ⟨by decide, by simp⟩ (.newline (lines text clean))
          simpa [Step.spelling?] using step.comes comes_refl

/-! ## Messages -/

theorem Run.scanFrom_messages
    (r : Run holes cs steps final) (file : String) (n mark lo : Nat) (h : cs.length ≤ n) :
    (scanFrom file n mark lo holes cs).diagnostics.map (·.message) =
      (steps.filterMap (·.problem)).map (·.message) ++ final.map fun _ => ScanProblem.unterminatedString.message := by
  induction r generalizing n mark lo with
  | done => cases n <;> simp [scanFrom, finish]
  | @step holes final cs s steps l more ih =>
    obtain ⟨m, le, next⟩ := l.scanFrom_eq file mark lo h
    rw [next]
    simp only [List.map_append, List.filterMap_cons]
    rw [ih m lo _ le, Step.diagnostic?]
    cases s.problem <;> simp

end Scanner

/-! ## Comments -/

/-- No string is open behind the text: each that starts in it ends in it, or is interrupted there. -/
def Scanner.OutsideStrings (before : List Char) : Prop :=
  ∃ steps final, Run [] before steps final ∧ ∀ s ∈ steps, s.problem ≠ some .unterminatedString

/-- What does not depend on where tokens stand. -/
def Scan.outcome (s : Scan) : List (TokenKind × String × Option String) × List String :=
  (s.tokens.map (·.spelling), s.diagnostics.map (·.message))

open Scanner in
theorem outcome_of_run {source : List Char} {final : List Hole} (r : Run [] source steps final)
    (file : String) : (scan (String.ofList source) file).outcome =
      (steps.filterMap Step.spelling? ++ [(.eof, "", none)],
        (steps.filterMap (·.problem)).map (·.message) ++
          final.map fun _ => ScanProblem.unterminatedString.message) := by
  have r' : Run [] (String.ofList source).toList steps final := by rwa [String.toList_ofList]
  rw [Scan.outcome, r'.scan_tokens, List.map_append, map_spelling_tokensOf, scan,
    r'.scanFrom_messages _ _ _ _ (Nat.le_refl _)]
  rfl

/-- A source with a comment: `text` is all that stands behind its slashes on its line. -/
def commented (before text rest : List Char) : String := String.ofList (before ++ '/' :: '/' :: (text ++ rest))

open Scanner in
/-- A comment outside strings. Replacing its text up to the first NUL, if there is one, leaves tokens and messages as
they are; a NUL in it is reported, and what comes behind the NUL is read. -/
theorem scan_comment (before text text' rest : List Char) (outside : OutsideStrings before)
    (slash : before.getLast? ≠ some '/') (line : '\n' ∉ text) (line' : '\n' ∉ text')
    (stop : ∀ d ∈ rest.head?, d = '\n') (file : String) :
    (text'.dropWhile (· != '\x00') = text.dropWhile (· != '\x00') →
      (scan (commented before text' rest) file).outcome = (scan (commented before text rest) file).outcome) ∧
    ('\x00' ∈ text →
      (ScanProblem.unexpectedCharacter '\x00').message ∈ (scan (commented before text rest) file).outcome.2) := by
  obtain ⟨steps, final, r, closed⟩ := outside
  have front {text : List Char} (line : '\n' ∉ text) : ∀ d ∈ text.takeWhile (· != '\x00'), endsComment d = false := by
    intro d hd
    have nul := List.mem_takeWhile_imp hd
    have newline : d ≠ '\n' := fun h => line (h ▸ List.takeWhile_subset _ hd)
    simpa [endsComment, newline] using nul
  have ends : ∀ d ∈ (text.dropWhile (· != '\x00') ++ rest).head?, endsComment d := by
    have nul := List.head?_dropWhile_not (· != '\x00') text
    cases back : text.dropWhile (· != '\x00') with
    | nil => exact fun d hd => by simp [endsComment, stop d hd]
    | cons c back =>
      rw [back] at nul
      simpa [endsComment] using .inr (by simpa using nul)
  obtain ⟨seen, problems, n, nul, comes⟩ := r.comes_past_comment (by simp [Quoted]) closed slash ends
  have parts (text : List Char) : text ++ rest =
      text.takeWhile (· != '\x00') ++ (text.dropWhile (· != '\x00') ++ rest) := by
    rw [← List.append_assoc, List.takeWhile_append_dropWhile]
  constructor
  · intro same
    obtain ⟨steps, last, r⟩ := exists_run _ final ((text.dropWhile (· != '\x00') ++ rest).drop n) (Nat.le_refl _)
    obtain ⟨left, runs, spelled, found⟩ := comes _ (front line) steps last r
    obtain ⟨right, runs', spelled', found'⟩ := comes _ (front line') steps last r
    rw [commented, commented, parts text', parts text, same, outcome_of_run runs, outcome_of_run runs', spelled, found,
      spelled', found']
  · intro mem
    obtain ⟨more, back⟩ : ∃ more, text.dropWhile (· != '\x00') = '\x00' :: more := by
      have head := List.head?_dropWhile_not (· != '\x00') text
      cases back : text.dropWhile (· != '\x00') with
      | nil => simpa using List.dropWhile_eq_nil_iff.mp back _ mem
      | cons c more =>
        rw [back] at head
        exact ⟨more, by simpa using head⟩
    rw [back] at comes nul
    obtain rfl := nul rfl
    obtain ⟨steps, last, r⟩ := exists_run _ final (more ++ rest) (Nat.le_refl _)
    obtain ⟨left, runs, spelled, found⟩ := comes _ (front line) _ last
      (.step (.code ⟨by decide, by simp⟩ (code_nul final (more ++ rest))) r)
    rw [commented, parts text, back, outcome_of_run runs, found]
    simp

/-- A comment in an embedded expression. -/
theorem scan_comment_in_hole :
    (scan "\x22a$\x7bb // \x22c\n\x7d\x22" "").outcome = (scan "\x22a$\x7bb //\n\x7d\x22" "").outcome := by
  have outside : Scanner.OutsideStrings "\x22a$\x7bb ".toList := by
    refine ⟨_, _, .step (Scanner.lexes_lex [] '\x22' "a$\x7bb ".toList) (.step (Scanner.lexes_lex _ 'b' " ".toList)
      (.step (Scanner.lexes_lex _ ' ' []) .done)), ?_⟩
    decide +kernel
  have slash : "\x22a$\x7bb ".toList.getLast? ≠ some '/' := by decide
  exact (scan_comment _ [] " \x22c".toList "\n\x7d\x22".toList outside slash (by decide) (by decide)
    (fun d hd => (Option.some.inj hd).symm) "").1 (by decide)

theorem scan_comment_nul :
    (scan "// a" "").outcome = ([(.eof, "", none)], []) ∧
    (scan "// a\x00b" "").outcome =
      ([(.identifier, "b", none), (.eof, "", none)], ["Unexpected character: \x00"]) := by
  decide +kernel

end PhaseLang
