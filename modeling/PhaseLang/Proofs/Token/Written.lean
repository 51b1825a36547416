import PhaseLang.Proofs.Token.Tiling

/-!
# Texts written from lexemes

`Yields file lo text ts` says that a text outside of strings and holes scans to the tokens `ts`, and
that nothing is wrong with it. There is a rule for each kind of lexeme that can be put in front of such
a text, so a text that is written from names, numbers and signs is scanned lexeme by lexeme.
-/

namespace PhaseLang

variable {c : Char} {kind : TokenKind}

namespace Scanner

variable {file : String} {lo : Nat} {text : List Char} {ts : List Token}

def Yields (file : String) (lo : Nat) (text : List Char) (ts : List Token) : Prop :=
  ∃ steps, Run [] text steps [] ∧ tokensOf file lo steps = ts ∧ ∀ s ∈ steps, s.problem = none

theorem yields_nil : Yields file lo [] [] := ⟨[], .done, rfl, by simp⟩

theorem Yields.step {s : Step} {hi : Nat} (front : List Token) (l : Lexes [] text s) (holes : s.holes = [])
    (clean : s.problem = none) (token : (s.token? file lo).toList = front) (next : s.next lo = hi)
    (more : Yields file hi s.rest ts) : Yields file lo text (front ++ ts) := by
  obtain ⟨steps, run, rfl, rest⟩ := more
  subst token next
  refine ⟨s :: steps, .step l (by rwa [holes]), rfl, ?_⟩
  rw [List.forall_mem_cons]
  exact ⟨clean, rest⟩

theorem Yields.scan_tokens {code : String} (h : Yields file 0 code.toList ts) :
    (scan code file).tokens = ts ++ [⟨.eof, "", none, ⟨code.utf8ByteSize, code.utf8ByteSize, file⟩⟩] := by
  obtain ⟨steps, run, rfl, -⟩ := h
  exact run.scan_tokens file

theorem Yields.scan_diagnostics {code : String} (h : Yields file 0 code.toList ts) :
    (scan code file).diagnostics = [] := by
  obtain ⟨steps, run, -, clean⟩ := h
  exact (run.scan_diagnostics file).mpr ⟨clean, rfl⟩

theorem outside_nil (h : isQuote c = false) : Outside [] c := ⟨h, nofun⟩

theorem Yields.blank (more : Yields file (lo + 1) text ts) : Yields file lo (' ' :: text) ts :=
  .step [] (.code (outside_nil rfl) (.blank rfl)) rfl rfl rfl rfl more

/-! ## Words -/

theorem isQuote_of_isWordPart (h : isWordPart c = true) : isQuote c = false := by
  by_contra quote
  simp only [isQuote, Bool.not_eq_false, Bool.or_eq_true, beq_iff_eq] at quote
  rcases quote with rfl | rfl <;> exact absurd h (by decide)

structure Word (kind : TokenKind) (word : String) : Prop where
  filled : word.toList ≠ []
  start : ∀ c ∈ word.toList.head?, isWordStart c = true
  part : ∀ c ∈ word.toList, isWordPart c = true
  isKind : wordKind word.toList none = kind

variable {kind : TokenKind}

theorem Word.of_all {word : String} (start : word.toList.head?.any isWordStart = true)
    (part : word.toList.all isWordPart = true) (isKind : wordKind word.toList none = kind) : Word kind word := by
  obtain ⟨c, first, starts⟩ := (Option.any_eq_true _ _).mp start
  constructor
  case filled =>
    intro empty
    simp [empty] at first
  case start =>
    intro d mem
    rw [first, Option.mem_some_iff] at mem
    exact mem ▸ starts
  case part => exact List.all_eq_true.mp part
  case isKind => exact isKind

theorem wordKind_of_plain {word : List Char} {next : Option Char} (h : ∀ c ∈ next, isQuote c = false) :
    wordKind word next = wordKind word none := by
  have plain : next.any isQuote = false := by simpa [Option.any_eq_false] using h
  unfold wordKind
  rw [plain]
  rfl

def Ends (c : Char) : Prop := isWordPart c = false ∧ isQuote c = false

instance : DecidablePred Ends := fun c => inferInstanceAs (Decidable (isWordPart c = false ∧ isQuote c = false))

theorem Yields.word {word : String} (h : Word kind word) (stop : ∀ c ∈ text.head?, Ends c)
    (more : Yields file (lo + word.utf8ByteSize) text ts) :
    Yields file lo (word.toList ++ text) (⟨kind, word, none, ⟨lo, lo + word.utf8ByteSize, file⟩⟩ :: ts) := by
  obtain ⟨filled, start, part, isKind⟩ := h
  obtain ⟨cs, rfl⟩ : ∃ cs, word = String.ofList cs := ⟨word.toList, word.ofList_toList.symm⟩
  rw [← Text.byteLength_toList] at more ⊢
  rw [String.toList_ofList] at *
  cases cs with
  | nil => exact absurd rfl filled
  | cons c word =>
    have starts : isWordStart c = true := start c rfl
    have unquoted : isQuote c = false := isQuote_of_isWordPart (part c List.mem_cons_self)
    have rule : Code [] c (word ++ text) _ :=
      .word starts (fun d hd => part d (List.mem_cons_of_mem c hd)) fun d hd => (stop d hd).1
    rw [wordKind_of_plain fun d hd => (stop d hd).2, isKind] at rule
    exact .step [_] (.code (outside_nil unquoted) rule) rfl rfl rfl rfl more

/-! ## Signs -/

theorem symbol?_single (known : ([c], kind) ∈ symbolTable)
    (alone : ∀ entry ∈ symbolTable, entry.1.head? = some c → entry.1 = [c] ∨ entry.1.tail.head? ≠ text.head?) :
    symbol? (c :: text) = some ([c], kind) := by
  have unique : ∀ a ∈ symbolTable, ∀ b ∈ symbolTable, a.1 = b.1 → a = b := by decide
  cases found : symbol? (c :: text) with
  | none =>
    have missing := List.find?_eq_none.mp found _ known
    simp at missing
  | some entry =>
    obtain ⟨filled, front, -⟩ := symbol?_eq_some found
    have mem := List.mem_of_find?_eq_some found
    obtain ⟨spelling, kind'⟩ := entry
    cases spelling with
    | nil => exact absurd rfl filled
    | cons d more =>
      obtain ⟨rfl, rest⟩ := List.cons_prefix_cons.mp front
      rcases alone _ mem rfl with same | other
      · rw [unique _ mem _ known same]
      · cases more with
        | nil => rw [unique _ mem _ known rfl]
        | cons e more =>
          obtain ⟨tail, rfl⟩ := rest
          exact absurd rfl other

theorem Yields.symbol (known : ([c], kind) ∈ symbolTable) (h : Symbolic c)
    (plain : isQuote c = false ∧ c ≠ '/' ∧ c.utf8Size = 1)
    (alone : ∀ entry ∈ symbolTable, entry.1.head? = some c → entry.1 = [c] ∨ entry.1.tail.head? ≠ text.head?)
    (more : Yields file (lo + 1) text ts) :
    Yields file lo (c :: text) (⟨kind, kind.text, none, ⟨lo, lo + 1, file⟩⟩ :: ts) := by
  obtain ⟨unquoted, slash, size⟩ := plain
  have rule : Code [] c ([] ++ text) _ :=
    .symbol h (by simp [slash]) (symbol?_single known alone)
  have width : Text.byteLength [c] = 1 := by simp [Text.byteLength, size]
  have spelling : String.ofList [c] = kind.text := by
    obtain ⟨kind', -, same⟩ := List.mem_map.mp known
    obtain ⟨spelled, rfl⟩ := Prod.mk.inj same
    rw [← spelled, String.ofList_toList]
  refine .step [_] (.code (outside_nil unquoted) rule) rfl rfl ?_ ?_ more
  · rw [Step.token?, width, spelling]
    rfl
  · rw [Step.next, width]
    rfl

def signs : List (Char × TokenKind) :=
  [('\x7b', .leftBrace), ('\x7d', .rightBrace), ('(', .leftParen), (')', .rightParen), ('[', .leftBracket),
    (']', .rightBracket), (',', .comma)]

theorem Yields.sign (mem : (c, kind) ∈ signs) (more : Yields file (lo + 1) text ts) :
    Yields file lo (c :: text) (⟨kind, kind.text, none, ⟨lo, lo + 1, file⟩⟩ :: ts) := by
  have all : ∀ sign ∈ signs, ([sign.1], sign.2) ∈ symbolTable ∧
      (isSpace sign.1 = false ∧ sign.1 ≠ '\n' ∧ isDigit sign.1 = false ∧ isWordStart sign.1 = false) ∧
      (isQuote sign.1 = false ∧ sign.1 ≠ '/' ∧ sign.1.utf8Size = 1) ∧
      ∀ entry ∈ symbolTable, entry.1.head? = some sign.1 → entry.1 = [sign.1] := by decide
  obtain ⟨known, ⟨space, newline, digit, word⟩, plain, alone⟩ := all _ mem
  exact .symbol known ⟨space, newline, digit, word⟩ plain (fun entry found first => .inl (alone entry found first)) more

/-! ## Numbers and strings -/

theorem Yields.number {digits : String} (filled : digits.toList ≠ []) (h : ∀ c ∈ digits.toList, isDigit c = true)
    (stop : ∀ c ∈ text.head?, isDigit c = false ∧ c ≠ '.')
    (more : Yields file (lo + digits.utf8ByteSize) text ts) :
    Yields file lo (digits.toList ++ text)
      (⟨.number, digits, some digits, ⟨lo, lo + digits.utf8ByteSize, file⟩⟩ :: ts) := by
  obtain ⟨cs, rfl⟩ : ∃ cs, digits = String.ofList cs := ⟨digits.toList, digits.ofList_toList.symm⟩
  rw [← Text.byteLength_toList] at more ⊢
  rw [String.toList_ofList] at *
  cases cs with
  | nil => exact absurd rfl filled
  | cons c digits =>
    have digit : isDigit c = true := h c List.mem_cons_self
    have unquoted : isQuote c = false := isQuote_of_isWordPart (by simp [isWordPart, digit])
    have whole : fractionLength text = 0 := by
      unfold fractionLength
      split
      · exact absurd rfl (stop '.' rfl).2
      · rfl
    have length : numberLength (c :: (digits ++ text)) = digits.length + 1 := by
      rw [← List.cons_append, numberLength_span h fun d hd => (stop d hd).1, whole]
      rfl
    exact .step [_] (.code (outside_nil unquoted) (.number digit length)) rfl rfl rfl rfl more

theorem fragmentLength_word {quote : Char} (hq : isQuote quote = true) {word : List Char}
    (h : ∀ c ∈ word, isWordPart c = true) :
    fragmentLength quote (word ++ [quote] ++ text) = (word.length, .quote) := by
  induction word with
  | nil =>
    have escape : quote ≠ '\\' := by rintro rfl; exact absurd hq (by decide)
    have hole : quote ≠ '$' := by rintro rfl; exact absurd hq (by decide)
    show fragmentLength quote (quote :: text) = _
    rw [fragmentLength_cons escape fun dollar => absurd dollar hole, if_pos rfl]
    rfl
  | cons c word ih =>
    have part : isWordPart c = true := h c List.mem_cons_self
    have escape : c ≠ '\\' := by rintro rfl; exact absurd part (by decide)
    have hole : c ≠ '$' := by rintro rfl; exact absurd part (by decide)
    have other : c ≠ quote := by
      rintro rfl
      exact absurd hq (by simp [isQuote_of_isWordPart part])
    rw [List.cons_append, List.cons_append, fragmentLength_cons escape fun dollar => absurd dollar hole, if_neg other,
      ih fun d hd => h d (List.mem_cons_of_mem c hd)]
    rfl

theorem Yields.string {word : String} (h : ∀ c ∈ word.toList, isWordPart c = true)
    (more : Yields file (lo + (word.utf8ByteSize + 2)) text ts) :
    Yields file lo ('\x22' :: (word.toList ++ ['\x22'] ++ text))
      (⟨.string, String.ofList ('\x22' :: (word.toList ++ ['\x22'])), some word,
        ⟨lo, lo + (word.utf8ByteSize + 2), file⟩⟩ :: ts) := by
  have width : Text.byteLength ('\x22' :: (word.toList ++ ['\x22'])) = word.utf8ByteSize + 2 := by
    rw [Text.byteLength, Text.byteLength_append, Text.byteLength_toList, show Text.byteLength ['\x22'] = 1 from rfl,
      show Char.utf8Size '\x22' = 1 from rfl]
    omega
  refine .step [_] (.string (.quote rfl) (fragmentLength_word rfl h)) rfl rfl ?_ ?_ more
  · rw [Step.token?, width, Option.map_some, Option.map_some, String.ofList_toList]
    rfl
  · rw [Step.next, width]
    rfl

/-! ## Names in a scan -/

theorem wordKind_of_name {word : List Char} {next : Option Char} (h : wordKind word next = kind)
    (name : kind = .identifier ∨ kind = .typeIdentifier) : wordKind word none = kind := by
  subst h
  unfold wordKind at name ⊢
  split
  · rfl
  · rename_i lower
    rw [if_neg lower] at name
    split
    · rfl
    · by_cases quote : next.any isQuote = true
      · simp_all
      · rw [if_neg quote]
        rfl

theorem Lexes.word {holes : List Hole} {cs : List Char} {s : Step} (h : Lexes holes cs s)
    (found : s.kind = some kind) (name : kind = .identifier ∨ kind = .typeIdentifier) :
    Word kind (String.ofList s.lexeme) := by
  cases h with
  | code out h =>
    cases h with
    | blank | comment | stray => cases found
    | newline | number =>
      cases found
      simp at name
    | @word c word rest start part stop =>
      constructor
      all_goals rw [String.toList_ofList]
      case filled => simp
      case start =>
        intro d hd
        obtain rfl := Option.some.inj hd
        exact start
      case part =>
        rw [List.forall_mem_cons]
        exact ⟨by simp [isWordPart, start], part⟩
      case isKind => exact wordKind_of_name (Option.some.inj found) name
    | symbol h slash spelled =>
      cases found
      have symbols : ∀ kind ∈ TokenKind.symbols, kind ≠ .identifier ∧ kind ≠ .typeIdentifier := by decide
      obtain ⟨noName, noType⟩ := symbols kind (symbol?_eq_some spelled).2.2
      rcases name with name | name
      · exact absurd name noName
      · exact absurd name noType
  | string o h | hole o h =>
    cases found
    simp at name
  | missing => cases found

theorem Run.word {holes final : List Hole} {cs : List Char} {steps : List Step} (r : Run holes cs steps final)
    (lo : Nat) {t : Token} (mem : t ∈ tokensOf file lo steps) (name : t.kind = .identifier ∨ t.kind = .typeIdentifier) :
    Word t.kind t.lexeme := by
  induction r generalizing lo with
  | done => simp [tokensOf] at mem
  | step l more ih =>
    rcases mem_tokensOf_cons.mp mem with found | later
    · obtain ⟨kind, hkind, rfl⟩ := Option.map_eq_some_iff.mp found
      exact l.word hkind name
    · exact ih _ later

end Scanner

theorem scan_word {source file : String} {t : Token} (mem : t ∈ (scan source file).tokens)
    (name : t.kind = .identifier ∨ t.kind = .typeIdentifier) : Scanner.Word t.kind t.lexeme := by
  obtain ⟨steps, final, r⟩ := Scanner.exists_scan_run source
  rw [r.scan_tokens] at mem
  rcases List.mem_append.mp mem with mem | mem
  · exact r.word 0 mem name
  · obtain rfl := List.mem_singleton.mp mem
    simp at name

end PhaseLang
