import Mathlib.Data.List.TakeWhile
import PhaseLang.Token.Scanner

/-!
# Steps of the scanner

`Lexes holes text s` are the rules of one step: what stands at the front of the text, and
what must not follow it. The rules and the function `lex` say the same: `lexes_lex` and
`Lexes.lex_eq`. Everything about steps is read off the rules, so nothing after this module
opens `lex`.
-/

namespace PhaseLang.Scanner

theorem exists_span (p : Char → Bool) (cs : List Char) :
    ∃ front back, cs = front ++ back ∧ (∀ c ∈ front, p c) ∧ ∀ c ∈ back.head?, p c = false := by
  refine ⟨cs.takeWhile p, cs.dropWhile p, List.takeWhile_append_dropWhile.symm, ?_, ?_⟩
  · intro c hc
    exact List.mem_takeWhile_imp hc
  · intro c hc
    have h := List.head?_dropWhile_not p cs
    rw [Option.mem_def.mp hc] at h
    exact h

theorem takeWhile_span {p : Char → Bool} {front back : List Char} (hf : ∀ c ∈ front, p c)
    (hb : ∀ c ∈ back.head?, p c = false) : (front ++ back).takeWhile p = front := by
  rw [List.takeWhile_append_of_pos hf]
  cases back with
  | nil => simp
  | cons c back => rw [List.takeWhile_cons_of_neg (by simp [hb c rfl]), List.append_nil]

/-! ## Strings -/

def FragmentEnd.mark (quote : Char) : FragmentEnd → List Char
  | .quote => [quote]
  | .hole => ['$', '\x7b']
  | .missing => []

variable {cs : List Char}

theorem fragmentLength_cons {quote c : Char} (escape : c ≠ '\\') (hole : c = '$' → cs.head? ≠ some '\x7b') :
    fragmentLength quote (c :: cs) =
      if c = quote then (0, .quote)
      else ((fragmentLength quote cs).1 + 1, (fragmentLength quote cs).2) := by
  rw [fragmentLength.eq_5 _ _ _ (fun h _ => escape h) (fun _ _ h _ => escape h)
    (fun more hc hcs => hole hc (by rw [hcs]; rfl))]
  simp only [beq_iff_eq]

variable {c : Char}

theorem not_escape (hb : c = '\\' → cs = [] → False)
    (hbs : ∀ d more, c = '\\' → cs = d :: more → False) : c ≠ '\\' := by
  intro hc
  cases cs with
  | nil => exact hb hc rfl
  | cons d more => exact hbs d more hc rfl

/-- The content of a fragment stands before what ends it, and that alone decides how long it
is: what comes later is not read. -/
theorem exists_content (quote : Char) (cs : List Char) :
    ∃ content e rest, cs = content ++ e.mark quote ++ rest ∧ (e = .missing → rest = []) ∧
      fragmentLength quote cs = (content.length, e) ∧ (quote ≠ '$' → e ≠ .missing →
        ∀ tail, fragmentLength quote (content ++ e.mark quote ++ tail) = (content.length, e)) := by
  fun_induction fragmentLength quote cs with
  | case1 => exact ⟨[], .missing, [], rfl, fun _ => rfl, rfl, fun _ h => absurd rfl h⟩
  | case2 => exact ⟨['\\'], .missing, [], rfl, fun _ => rfl, rfl, fun _ h => absurd rfl h⟩
  | case3 d cs n e hn ih =>
    obtain ⟨content, e', rest, hcs, hrest, hlen, htail⟩ := ih
    rw [hn, Prod.mk.injEq] at hlen
    obtain ⟨rfl, rfl⟩ := hlen
    refine ⟨'\\' :: d :: content, e, rest, by simp [← hcs], hrest, rfl, fun hq he tail => ?_⟩
    simp only [List.cons_append, fragmentLength, htail hq he, List.length_cons]
  | case4 rest =>
    refine ⟨[], .hole, rest, rfl, nofun, rfl, fun _ _ tail => ?_⟩
    simp [fragmentLength, FragmentEnd.mark]
  | case5 c cs hb hbs hd hc =>
    obtain rfl := beq_iff_eq.mp hc
    refine ⟨[], .quote, cs, rfl, nofun, rfl, fun hq _ tail => ?_⟩
    show fragmentLength c (c :: tail) = _
    rw [fragmentLength_cons (not_escape hb hbs) (fun h => absurd h hq), if_pos rfl]
    rfl
  | case6 c cs hb hbs hd hc n e hn ih =>
    obtain ⟨content, e', rest, hcs, hrest, hlen, htail⟩ := ih
    rw [hn, Prod.mk.injEq] at hlen
    obtain ⟨rfl, rfl⟩ := hlen
    refine ⟨c :: content, e, rest, by simp [← hcs], hrest, rfl, fun hq he tail => ?_⟩
    -- The content and its end are not empty, so the first character after `c` stays the same.
    have first : (content ++ e.mark quote ++ tail).head? = cs.head? := by
      rw [hcs]
      cases content with
      | cons => rfl
      | nil =>
        cases e with
        | quote => rfl
        | hole => rfl
        | missing => exact absurd rfl he
    rw [List.cons_append, List.cons_append, fragmentLength_cons (not_escape hb hbs), htail hq he,
      if_neg (fun h => hc (beq_iff_eq.mpr h))]
    · rfl
    · intro hdollar hbrace
      rw [first] at hbrace
      obtain ⟨more, hmore⟩ := List.head?_eq_some_iff.mp hbrace
      exact hd more hdollar hmore

theorem fragmentLength_tail {quote : Char} {content rest : List Char} {e : FragmentEnd}
    (hq : quote ≠ '$') (he : e ≠ .missing)
    (h : fragmentLength quote (content ++ e.mark quote ++ rest) = (content.length, e)) (tail : List Char) :
    fragmentLength quote (content ++ e.mark quote ++ tail) = (content.length, e) := by
  obtain ⟨content', e', rest', hcs, _, hlen, htail⟩ :=
    exists_content quote (content ++ e.mark quote ++ rest)
  rw [h, Prod.mk.injEq] at hlen
  obtain ⟨hlen, rfl⟩ := hlen
  rw [List.append_assoc, List.append_assoc] at hcs
  obtain ⟨rfl, _⟩ := List.append_inj hcs hlen
  exact htail hq he tail

/-- A string starts at `c`, or the string around the innermost hole goes on there. -/
inductive Opens : (holes : List Hole) → (c quote : Char) → (outer : List Hole) → Prop
  | quote {holes : List Hole} {c : Char} (h : isQuote c) : Opens holes c c holes
  | resume {quote : Char} {outer : List Hole} : Opens (⟨quote, 0⟩ :: outer) '\x7d' quote outer

/-- No string starts or goes on at `c`. -/
def Outside (holes : List Hole) (c : Char) : Prop :=
  isQuote c = false ∧ (c = '\x7d' → ∀ quote outer, holes ≠ ⟨quote, 0⟩ :: outer)

theorem opens_or_outside (holes : List Hole) (c : Char) :
    (∃ quote outer, Opens holes c quote outer) ∨ Outside holes c := by
  by_cases hq : isQuote c
  · exact .inl ⟨c, holes, .quote hq⟩
  by_cases hc : c = '\x7d' ∧ ∃ quote outer, holes = ⟨quote, 0⟩ :: outer
  · obtain ⟨rfl, quote, outer, rfl⟩ := hc
    exact .inl ⟨quote, outer, .resume⟩
  · refine .inr ⟨by simpa using hq, fun h quote outer heq => hc ⟨h, quote, outer, heq⟩⟩

theorem lex_of_opens {holes outer : List Hole} {c quote : Char} (h : Opens holes c quote outer)
    (cs : List Char) : lex holes c cs = fragment quote c cs outer := by
  cases h with
  | quote h =>
    unfold lex
    rw [if_pos h]
  | resume => rfl

variable {holes : List Hole}

theorem lex_of_outside (h : Outside holes c) (cs : List Char) : lex holes c cs = lexCode c cs holes := by
  unfold lex
  rw [if_neg (by simp [h.1])]
  split
  · rename_i quote outer
    rw [if_neg]
    exact fun hc => h.2 (beq_iff_eq.mp hc) quote outer rfl
  · rfl

/-! ## Program text -/

/-- No blank, word or number starts at `c`. -/
structure Symbolic (c : Char) : Prop where
  space : isSpace c = false
  newline : c ≠ '\n'
  digit : isDigit c = false
  word : isWordStart c = false

/-- What one step over program text can be: the first character, the characters after it,
and the step. -/
inductive Code (holes : List Hole) : Char → List Char → Step → Prop
  | blank {c : Char} {rest : List Char} (h : isSpace c) :
      Code holes c rest { kind := none, lexeme := [c], rest, holes }
  | newline {gap rest : List Char} (h : blankLength false (gap ++ rest) = gap.length) :
      Code holes '\n' (gap ++ rest)
        { kind := some .newline, lexeme := ['\n'], gap, rest, holes }
  | comment {text rest : List Char} (h : ∀ d ∈ text, endsComment d = false)
      (stop : ∀ d ∈ rest.head?, endsComment d) :
      Code holes '/' ('/' :: (text ++ rest))
        { kind := none, lexeme := '/' :: '/' :: text, rest, holes }
  | number {c : Char} {digits rest : List Char} (h : isDigit c)
      (length : numberLength (c :: (digits ++ rest)) = digits.length + 1) :
      Code holes c (digits ++ rest)
        { kind := some .number, lexeme := c :: digits, literal := some (c :: digits), rest,
          holes := countBrace .number holes }
  | word {c : Char} {word rest : List Char} (h : isWordStart c) (part : ∀ d ∈ word, isWordPart d)
      (stop : ∀ d ∈ rest.head?, isWordPart d = false) :
      Code holes c (word ++ rest)
        { kind := some (wordKind (c :: word) rest.head?), lexeme := c :: word, rest,
          holes := countBrace (wordKind (c :: word) rest.head?) holes }
  | symbol {c : Char} {text rest : List Char} {kind : TokenKind} (h : Symbolic c)
      (slash : (c == '/' && (text ++ rest).head? == some '/') = false)
      (found : symbol? (c :: (text ++ rest)) = some (c :: text, kind)) :
      Code holes c (text ++ rest)
        { kind := some kind, lexeme := c :: text, rest, holes := countBrace kind holes }
  | stray {c : Char} {rest : List Char} (h : Symbolic c) (slash : (c == '/' && rest.head? == some '/') = false)
      (missing : symbol? (c :: rest) = none) :
      Code holes c rest
        { kind := none, lexeme := [c], problem := some (.unexpectedCharacter c), rest, holes }

theorem starts_of_isWordPart (h : isWordPart c) : isSpace c = false ∧ (c == '\n') = false ∧ (c == '/') = false := by
  refine ⟨?_, beq_eq_false_iff_ne.mpr ?_, beq_eq_false_iff_ne.mpr ?_⟩
  · by_contra hs
    simp only [isSpace, Bool.not_eq_false, Bool.or_eq_true, beq_iff_eq] at hs
    rcases hs with (rfl | rfl) | rfl <;> exact absurd h (by decide)
  all_goals
    rintro rfl
    exact absurd h (by decide)

theorem isDigit_of_isWordStart (h : isWordStart c) : isDigit c = false := by
  by_contra hd
  simp only [isWordStart, isUpper, isLower, isDigit, Bool.not_eq_false, Bool.or_eq_true,
    Bool.and_eq_true, decide_eq_true_eq, beq_iff_eq, Char.le_def, UInt32.le_iff_toNat_le] at h hd
  have : '9'.val.toNat = 57 ∧ 'A'.val.toNat = 65 ∧ 'a'.val.toNat = 97 := by decide
  rcases h with (h | h) | rfl
  · omega
  · omega
  · exact absurd hd (by decide)

variable {s : Step}

theorem Code.lexCode_eq (h : Code holes c cs s) : lexCode c cs holes = s := by
  cases h with
  | blank h => rw [lexCode, if_pos h]; rfl
  | newline h =>
    rw [lexCode, if_neg (by decide), if_pos (by decide)]
    simp only [h, List.take_left, List.drop_left]
  | comment h stop =>
    rename_i text rest
    have span : ('/' :: text ++ rest).takeWhile (!endsComment ·) = '/' :: text :=
      takeWhile_span (by simpa using ⟨by decide, h⟩) (by simpa using stop)
    rw [lexCode, if_neg (by decide), if_neg (by decide), if_pos (by rfl), ← List.cons_append, span]
    simp [skip, Nat.add_comm 1]
  | number h length =>
    obtain ⟨space, newline, slash⟩ := starts_of_isWordPart (c := c) (by simp [isWordPart, h])
    rw [lexCode]
    simp [space, newline, slash, h, length, take]
  | word h part stop =>
    rename_i word rest
    obtain ⟨space, newline, slash⟩ := starts_of_isWordPart (c := c) (by simp [isWordPart, h])
    have span : (c :: word ++ rest).takeWhile isWordPart = c :: word :=
      takeWhile_span (by simpa [isWordPart, h] using part) stop
    rw [lexCode]
    rw [List.cons_append] at span
    simp [space, newline, slash, h, isDigit_of_isWordStart h, span, take]
  | symbol h slash found =>
    rw [lexCode, if_neg (by simp [h.space]), if_neg (by simpa using h.newline),
      if_neg (by rw [slash]; decide), if_neg (by simp [h.digit]), if_neg (by simp [h.word]), found]
    simp [take]
  | stray h slash missing =>
    rw [lexCode, if_neg (by simp [h.space]), if_neg (by simpa using h.newline),
      if_neg (by rw [slash]; decide), if_neg (by simp [h.digit]), if_neg (by simp [h.word]), missing]
    rfl

theorem blankLength_le (inComment : Bool) (cs : List Char) : blankLength inComment cs ≤ cs.length := by
  fun_induction blankLength inComment cs <;> simp only [List.length_cons, List.length_nil] <;> omega

def fractionLength : List Char → Nat
  | '.' :: d :: more => if isDigit d then 2 + (more.takeWhile isDigit).length else 0
  | _ => 0

theorem numberLength_span {whole after : List Char} (hw : ∀ d ∈ whole, isDigit d)
    (ha : ∀ d ∈ after.head?, isDigit d = false) :
    numberLength (whole ++ after) = whole.length + fractionLength after := by
  unfold numberLength
  simp only [takeWhile_span hw ha, List.drop_left]
  fun_cases fractionLength after with
  | case1 d more hd =>
    simp only [hd, if_pos]
    omega
  | case2 d more hd => simp [hd]
  | case3 =>
    rename_i noPoint
    split
    · exact (noPoint _ _ rfl).elim
    · rfl

/-- A number is long enough to hold its first digit, and its length is decided before a
character that is neither a digit nor a point. -/
theorem exists_number (cs : List Char) :
    ∃ digits rest, cs = digits ++ rest ∧ numberLength cs = digits.length ∧
      (∀ d ∈ cs.head?, isDigit d → digits ≠ []) ∧
      ∀ tail, (∀ d ∈ tail.head?, isDigit d = false ∧ d ≠ '.') →
        numberLength (digits ++ tail) = digits.length := by
  obtain ⟨whole, after, rfl, hw, ha⟩ := exists_span isDigit cs
  have first : ∀ d ∈ (whole ++ after).head?, isDigit d → whole ≠ [] := by
    rintro d hd digit rfl
    exact absurd digit (by simp [ha d hd])
  have noFraction : ∀ tail, (∀ d ∈ tail.head?, isDigit d = false ∧ d ≠ '.') → fractionLength tail = 0 := by
    intro tail h
    unfold fractionLength
    split
    · exact absurd rfl (h '.' rfl).2
    · rfl
  by_cases h : fractionLength after = 0
  · refine ⟨whole, after, rfl, by rw [numberLength_span hw ha, h]; rfl, first, fun tail ht => ?_⟩
    rw [numberLength_span hw (fun d hd => (ht d hd).1), noFraction tail ht]; rfl
  · unfold fractionLength at h
    split at h
    · rename_i d more
      split at h
      · rename_i hd
        obtain ⟨fraction, rest, rfl, hf, hr⟩ := exists_span isDigit more
        refine ⟨whole ++ '.' :: d :: fraction, rest, by simp, ?_, fun _ _ _ => by simp, fun tail ht => ?_⟩
        · rw [numberLength_span hw ha, fractionLength, if_pos hd, takeWhile_span hf hr]
          simp; omega
        · rw [List.append_assoc, List.cons_append, List.cons_append, numberLength_span hw (by simp; decide),
            fractionLength, if_pos hd, takeWhile_span hf (fun d hd => (ht d hd).1)]
          simp; omega
      · exact absurd rfl h
    · exact absurd rfl h

theorem numberLength_tail {digits rest tail : List Char} (h : numberLength (digits ++ rest) = digits.length)
    (ht : ∀ d ∈ tail.head?, isDigit d = false ∧ d ≠ '.') : numberLength (digits ++ tail) = digits.length := by
  obtain ⟨digits', rest', hcs, hlen, _, htail⟩ := exists_number (digits ++ rest)
  obtain ⟨rfl, _⟩ := List.append_inj hcs (h.symm.trans hlen)
  exact htail tail ht

theorem symbol?_eq_some {cs text : List Char} {kind : TokenKind} (h : symbol? cs = some (text, kind)) :
    text ≠ [] ∧ text <+: cs ∧ kind ∈ TokenKind.symbols := by
  have entries : ∀ entry ∈ symbolTable, entry.1 ≠ [] ∧ entry.2 ∈ TokenKind.symbols := by decide
  obtain ⟨hne, hkind⟩ := entries _ (List.mem_of_find?_eq_some h)
  have hpre := List.find?_some h
  exact ⟨hne, List.isPrefixOf_iff_prefix.mp hpre, hkind⟩

theorem exists_code (holes : List Hole) (c : Char) (cs : List Char) : ∃ s, Code holes c cs s := by
  by_cases space : isSpace c
  · exact ⟨_, .blank space⟩
  by_cases newline : c = '\n'
  · subst newline
    have h : blankLength false (cs.take (blankLength false cs) ++ cs.drop (blankLength false cs)) =
        (cs.take (blankLength false cs)).length := by
      rw [List.take_append_drop, List.length_take, Nat.min_eq_left (blankLength_le false cs)]
    have rule : Code holes '\n' _ _ := .newline h
    rw [List.take_append_drop] at rule
    exact ⟨_, rule⟩
  by_cases slash : (c == '/' && cs.head? == some '/') = true
  · simp only [Bool.and_eq_true, beq_iff_eq, List.head?_eq_some_iff] at slash
    obtain ⟨rfl, more, rfl⟩ := slash
    obtain ⟨text, rest, rfl, ht, hr⟩ := exists_span (!endsComment ·) more
    exact ⟨_, .comment (by simpa using ht) (by simpa using hr)⟩
  by_cases digit : isDigit c
  · obtain ⟨digits, rest, hcs, hlen, hpos, _⟩ := exists_number (c :: cs)
    cases digits with
    | nil => exact absurd rfl (hpos c rfl digit)
    | cons d digits =>
      obtain ⟨rfl, rfl⟩ := List.cons.inj hcs
      exact ⟨_, .number digit hlen⟩
  by_cases word : isWordStart c
  · obtain ⟨word', rest, rfl, hw, hr⟩ := exists_span isWordPart cs
    exact ⟨_, .word word hw hr⟩
  rw [Bool.not_eq_true] at space slash digit word
  cases found : symbol? (c :: cs) with
  | none => exact ⟨_, .stray ⟨space, newline, digit, word⟩ slash found⟩
  | some entry =>
    obtain ⟨text, kind⟩ := entry
    obtain ⟨hne, ⟨rest, hrest⟩, _⟩ := symbol?_eq_some found
    cases text with
    | nil => exact absurd rfl hne
    | cons d text =>
      obtain ⟨rfl, rfl⟩ := List.cons.inj hrest
      exact ⟨_, .symbol ⟨space, newline, digit, word⟩ slash found⟩

/-! ## Steps -/

inductive Lexes (holes : List Hole) : List Char → Step → Prop
  | code {c : Char} {cs : List Char} {s : Step} (out : Outside holes c) (h : Code holes c cs s) :
      Lexes holes (c :: cs) s
  | string {c quote : Char} {outer : List Hole} {content rest : List Char}
      (o : Opens holes c quote outer)
      (h : fragmentLength quote (content ++ [quote] ++ rest) = (content.length, .quote)) :
      Lexes holes (c :: (content ++ [quote] ++ rest))
        { kind := some .string, lexeme := c :: (content ++ [quote]), literal := some content, rest,
          holes := outer }
  | hole {c quote : Char} {outer : List Hole} {content rest : List Char}
      (o : Opens holes c quote outer)
      (h : fragmentLength quote (content ++ ['$', '\x7b'] ++ rest) = (content.length, .hole)) :
      Lexes holes (c :: (content ++ ['$', '\x7b'] ++ rest))
        { kind := some .interpolation, lexeme := c :: (content ++ ['$', '\x7b']),
          literal := some content,
          problem := if maxDepth < outer.length + 1 then some .interpolationTooDeep else none,
          rest, holes := ⟨quote, 0⟩ :: outer }
  | missing {c quote : Char} {outer : List Hole} {content : List Char}
      (o : Opens holes c quote outer)
      (h : fragmentLength quote content = (content.length, .missing)) :
      Lexes holes (c :: content)
        { kind := none, lexeme := c :: content, problem := some .unterminatedString, rest := [],
          holes := outer }

theorem Lexes.lex_eq (h : Lexes holes (c :: cs) s) : lex holes c cs = s := by
  cases h with
  | code out h => rw [lex_of_outside out, h.lexCode_eq]
  | string o h => rw [lex_of_opens o, fragment, h]; simp
  | hole o h => rw [lex_of_opens o, fragment, h]; simp
  | missing o h => rw [lex_of_opens o, fragment, h]; simp

theorem exists_lexes (holes : List Hole) (c : Char) (cs : List Char) : ∃ s, Lexes holes (c :: cs) s := by
  rcases opens_or_outside holes c with ⟨quote, outer, o⟩ | out
  · obtain ⟨content, e, rest, rfl, hrest, h, _⟩ := exists_content quote cs
    cases e with
    | quote => exact ⟨_, .string o h⟩
    | hole => exact ⟨_, .hole o h⟩
    | missing =>
      obtain rfl := hrest rfl
      simp only [FragmentEnd.mark, List.append_nil] at h ⊢
      exact ⟨_, .missing o h⟩
  · obtain ⟨s, h⟩ := exists_code holes c cs
    exact ⟨s, .code out h⟩

theorem lexes_lex (holes : List Hole) (c : Char) (cs : List Char) : Lexes holes (c :: cs) (lex holes c cs) := by
  obtain ⟨s, h⟩ := exists_lexes holes c cs
  rw [h.lex_eq]
  exact h

theorem Lexes.tiles (h : Lexes holes cs s) : cs = s.lexeme ++ s.gap ++ s.rest := by
  cases h with
  | code out h => cases h <;> simp
  | string o h => simp
  | hole o h => simp
  | missing o h => simp

theorem Lexes.lexeme_ne_nil (h : Lexes holes cs s) : s.lexeme ≠ [] := by
  cases h with
  | code out h => cases h <;> simp
  | string o h => simp
  | hole o h => simp
  | missing o h => simp

theorem wordKind_mem (word : List Char) (next : Option Char) :
    wordKind word next ∈ [.typeIdentifier, .templateTag, .identifier] ++ TokenKind.keywords := by
  unfold wordKind
  split
  · simp
  · split
    · rename_i kind h
      exact List.mem_append_right _ (List.mem_of_find?_eq_some h)
    · split <;> simp

theorem Lexes.kind_ne_eof (h : Lexes holes cs s) : s.kind ≠ some .eof := by
  cases h with
  | code out h =>
    cases h with
    | word h part stop =>
      intro heq
      exact absurd (Option.some.inj heq ▸ wordKind_mem _ _) (by decide)
    | symbol h slash found =>
      intro heq
      exact absurd (Option.some.inj heq ▸ (symbol?_eq_some found).2.2) (by decide)
    | _ => simp
  | _ => simp

end PhaseLang.Scanner
