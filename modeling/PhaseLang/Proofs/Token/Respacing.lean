import PhaseLang.Proofs.Token.Tiling

/-!
# Scanning again after re-spacing

A lexeme is read again wherever a space, the end of the text or, for a template tag, a quote
follows it: `Lexes.respaced`. So the lexemes of a text that scans without a problem, with one
space between them, scan to the same tokens (`scan_respaced`).
-/

namespace PhaseLang

variable {text rest : List Char} {holes final : List Hole}

namespace Token

def spelling (t : Token) : TokenKind × String × Option String := (t.kind, t.lexeme, t.literal)

/-- The lexemes with one space between them, but nothing after a template tag. -/
def respaced : List Token → List Char
  | [] => []
  | [t] => t.lexeme.toList
  | t :: next :: ts =>
    t.lexeme.toList ++ (if t.kind = .templateTag then [] else [' ']) ++ respaced (next :: ts)

end Token

namespace Scanner

/-! ## What may follow a lexeme -/

inductive Follows : TokenKind → Option Char → Prop
  | quote {c : Char} (h : isQuote c) : Follows .templateTag (some c)
  | stop {kind : TokenKind} (h : kind ≠ .templateTag) : Follows kind none
  | space {kind : TokenKind} (h : kind ≠ .templateTag) : Follows kind (some ' ')

variable {kind : TokenKind} {next : Option Char}

theorem Follows.none_or_space (h : Follows kind next)
    (hk : kind ≠ .templateTag) : next = none ∨ next = some ' ' := by
  cases h with
  | quote => exact absurd rfl hk
  | stop => exact .inl rfl
  | space => exact .inr rfl

theorem Follows.isWordPart (h : Follows kind next) : ∀ d ∈ next, isWordPart d = false := by
  intro d hd
  cases h with
  | quote h =>
    obtain rfl := Option.some.inj hd
    rw [isQuote, Bool.or_eq_true, beq_iff_eq, beq_iff_eq] at h
    rcases h with rfl | rfl <;> decide
  | stop => cases hd
  | space =>
    obtain rfl := Option.some.inj hd
    decide

theorem wordKind_of_follows {word : List Char} {next next' : Option Char}
    (h : Follows (wordKind word next) next') : wordKind word next' = wordKind word next := by
  unfold wordKind at h ⊢
  by_cases upper : word.head?.any isUpper
  · rw [if_pos upper, if_pos upper]
  rw [if_neg upper] at h ⊢
  rw [if_neg upper]
  cases hw : TokenKind.keyword? (String.ofList word) with
  | some kind => rfl
  | none =>
    rw [hw] at h
    by_cases quoted : next.any isQuote
    · simp only [if_pos quoted] at h ⊢
      cases h with
      | quote h => exact if_pos h
      | stop h => exact absurd rfl h
      | space h => exact absurd rfl h
    · simp only [if_neg quoted] at h ⊢
      rcases h.none_or_space (by decide) with rfl | rfl <;> rfl

theorem symbol?_tail {tail : List Char} (found : symbol? (text ++ rest) = some (text, kind))
    (ht : tail.head? = none ∨ tail.head? = some ' ') : symbol? (text ++ tail) = some (text, kind) := by
  unfold symbol? at found ⊢
  rw [List.find?_eq_some_iff_append] at found ⊢
  obtain ⟨_, earlier, later, table, misses⟩ := found
  refine ⟨List.isPrefixOf_iff_prefix.mpr (List.prefix_append _ _), earlier, later, table, ?_⟩
  intro entry hmem
  have noSpace : ∀ entry ∈ symbolTable, ' ' ∉ entry.1 := by decide
  have miss := misses entry hmem
  rw [Bool.not_eq_true', ← Bool.not_eq_true, List.isPrefixOf_iff_prefix] at miss ⊢
  intro hpre
  apply miss
  have before : entry.1 <+: text := by
    rcases Nat.le_total entry.1.length text.length with short | long
    · exact List.prefix_of_prefix_length_le hpre (List.prefix_append _ _) short
    · obtain ⟨more, hmore⟩ := List.prefix_of_prefix_length_le (List.prefix_append text tail) hpre long
      cases more with
      | nil => exact List.append_nil text ▸ hmore ▸ List.prefix_refl _
      | cons d more =>
        rw [← hmore, List.prefix_append_right_inj] at hpre
        obtain ⟨rest, rfl⟩ := hpre
        rcases ht with ht | ht
        · cases ht
        · have inTable : entry ∈ symbolTable := table ▸ List.mem_append_left _ hmem
          refine absurd ?_ (noSpace entry inTable)
          obtain rfl := Option.some.inj ht
          rw [← hmore]
          simp
  exact before.trans (List.prefix_append _ _)

/-! ## Lexemes read again -/

def Quoted (holes : List Hole) : Prop := ∀ h ∈ holes, isQuote h.quote

theorem Quoted.opens {outer : List Hole} {c quote : Char} (h : Quoted holes)
    (o : Opens holes c quote outer) : isQuote quote ∧ Quoted outer := by
  cases o with
  | quote hc => exact ⟨hc, h⟩
  | resume => exact List.forall_mem_cons.mp h

variable {holes : List Hole}

theorem quoted_countBrace (h : Quoted holes) (kind : TokenKind) : Quoted (countBrace kind holes) := by
  fun_cases countBrace kind holes with
  | case1 => exact h
  | case2 hole outer =>
    intro other hmem
    rcases List.mem_cons.mp hmem with rfl | hmem
    · exact h hole (by simp)
    · exact h other (by simp [hmem])
  | case3 hole outer =>
    intro other hmem
    rcases List.mem_cons.mp hmem with rfl | hmem
    · exact h hole (by simp)
    · exact h other (by simp [hmem])
  | case4 => exact h

variable {cs : List Char} {s : Step}

theorem Lexes.quoted (l : Lexes holes cs s) (h : Quoted holes) : Quoted s.holes := by
  cases l with
  | @code c cs s out l =>
    cases l with
    | number => exact quoted_countBrace h .number
    | @word _ word rest => exact quoted_countBrace h (wordKind (c :: word) rest.head?)
    | @symbol _ text rest kind => exact quoted_countBrace h kind
    | _ => exact h
  | string o => exact (h.opens o).2
  | hole o => exact List.forall_mem_cons.mpr (h.opens o)
  | missing o => exact (h.opens o).2

variable {c : Char}

theorem ne_dollar_of_isQuote (h : isQuote c) : c ≠ '$' := by
  rintro rfl
  exact absurd h (by decide)

theorem Lexes.respaced {cs tail : List Char} (l : Lexes holes cs s) (hq : Quoted holes) (hk : s.kind = some kind)
    (hn : kind ≠ .newline)
    (ht : Follows kind tail.head?) : Lexes holes (s.lexeme ++ tail) { s with gap := [], rest := tail } := by
  cases l with
  | @code c cs s out l =>
    cases l with
    | blank => cases hk
    | comment => cases hk
    | stray => cases hk
    | newline => exact absurd (Option.some.inj hk).symm hn
    | @number _ digits rest h length =>
      obtain rfl := Option.some.inj hk
      have again : numberLength (c :: digits ++ tail) = (c :: digits).length := by
        refine numberLength_tail length ?_
        intro d hd
        rcases ht.none_or_space (by decide) with hnone | hspace
        · rw [hnone] at hd
          cases hd
        · rw [hspace] at hd
          obtain rfl := Option.some.inj hd
          decide
      exact .code out (.number h again)
    | word h part stop =>
      obtain rfl := Option.some.inj hk
      have rule : Code holes _ _ _ := .word h part ht.isWordPart
      rw [wordKind_of_follows ht] at rule
      exact .code out rule
    | @symbol _ text rest kind h slash found =>
      obtain rfl := Option.some.inj hk
      have symbols : ∀ kind ∈ TokenKind.symbols, kind ≠ .templateTag := by decide
      have next := ht.none_or_space (symbols _ (symbol?_eq_some found).2.2)
      have again : symbol? (c :: text ++ tail) = some (c :: text, kind) := symbol?_tail found next
      refine .code out (.symbol h ?_ again)
      cases text with
      | cons d text => exact slash
      | nil => rcases next with next | next <;> simp [next]
  | string o h =>
    have hq := ne_dollar_of_isQuote (hq.opens o).1
    have rule := Lexes.string o (fragmentLength_tail hq (e := .quote) nofun h tail)
    simpa using rule
  | hole o h =>
    have hq := ne_dollar_of_isQuote (hq.opens o).1
    have rule := Lexes.hole o (fragmentLength_tail hq (e := .hole) nofun h tail)
    simpa using rule
  | missing => cases hk

/-! ## Line breaks -/

/-- Neither a blank nor a comment starts at `c`, with `more` after it. -/
structure Solid (c : Char) (more : List Char) : Prop where
  space : isSpace c = false
  newline : c ≠ '\n'
  comment : c = '/' → more.head? ≠ some '/'

theorem Solid.blankLength_eq_zero {more : List Char} (h : Solid c more) : blankLength false (c :: more) = 0 := by
  rw [blankLength, if_neg]
  · rw [Bool.or_eq_true, beq_iff_eq, h.space]
    exact fun hc => h.newline (hc.resolve_right (by decide))
  · intro rest hc hmore
    exact h.comment hc (by rw [hmore]; rfl)

theorem solid_of_blankLength (inComment : Bool) (cs : List Char) {more : List Char}
    (h : cs.drop (blankLength inComment cs) = c :: more) (hc : c ≠ '\x00') : Solid c more := by
  fun_induction blankLength inComment cs with
  | case1 => cases h
  | case2 d cs hd ih => exact ih (by rwa [Nat.add_comm, List.drop_succ_cons] at h)
  | case3 d cs hd hend =>
    obtain ⟨rfl, rfl⟩ := List.cons.inj h
    exact absurd (beq_iff_eq.mpr (eq_newline_of_endsComment hend hc)) hd
  | case4 d cs hd hend ih => exact ih (by rwa [Nat.add_comm, List.drop_succ_cons] at h)
  | case5 cs ih =>
    exact ih (by rwa [Nat.add_comm, List.drop_succ_cons, List.drop_succ_cons] at h)
  | case6 d cs _ hd ih => exact ih (by rwa [Nat.add_comm, List.drop_succ_cons] at h)
  | case7 d cs hslash hd =>
    obtain ⟨rfl, rfl⟩ := List.cons.inj h
    simp only [Bool.or_eq_true, beq_iff_eq, not_or, Bool.not_eq_true] at hd
    refine ⟨hd.2, hd.1, ?_⟩
    rintro rfl hmore
    obtain ⟨rest, rfl⟩ := List.head?_eq_some_iff.mp hmore
    exact hslash rest rfl rfl

theorem Lexes.of_solid (l : Lexes holes (c :: cs) s) (h : Solid c cs) (hp : s.problem = none) :
    ∃ kind text, s.kind = some kind ∧ s.lexeme = c :: text ∧
      (c = '/' → text = [] ∧ kind ≠ .templateTag) := by
  cases l with
  | code out l =>
    cases l with
    | blank hc => exact absurd hc (by simp [h.space])
    | newline => exact absurd rfl h.newline
    | comment => exact absurd rfl (h.comment rfl)
    | stray => cases hp
    | number hc =>
      refine ⟨_, _, rfl, rfl, ?_⟩
      rintro rfl
      exact absurd hc (by decide)
    | word hc =>
      refine ⟨_, _, rfl, rfl, ?_⟩
      rintro rfl
      exact absurd hc (by decide)
    | symbol hc slash found =>
      refine ⟨_, _, rfl, rfl, ?_⟩
      rintro rfl
      have slashes : ∀ entry ∈ symbolTable, entry.1.head? = some '/' →
          entry.1.tail = [] ∧ entry.2 ≠ .templateTag := by decide
      exact slashes _ (List.mem_of_find?_eq_some found) rfl
  | string o =>
    refine ⟨_, _, rfl, rfl, ?_⟩
    rintro rfl
    cases o with
    | quote hc => exact absurd hc (by decide)
  | hole o =>
    refine ⟨_, _, rfl, rfl, ?_⟩
    rintro rfl
    cases o with
    | quote hc => exact absurd hc (by decide)
  | missing => cases hp

theorem Lexes.holes_of_skip (l : Lexes holes cs s) (hk : s.kind = none) (hp : s.problem = none) : s.holes = holes := by
  cases l with
  | code out l =>
    cases l with
    | blank => rfl
    | comment => rfl
    | stray => cases hp
    | newline => cases hk
    | number => cases hk
    | word => cases hk
    | symbol => cases hk
  | string => cases hk
  | hole => cases hk
  | missing => cases hp

theorem Lexes.of_newline (l : Lexes holes cs s) (hk : s.kind = some .newline) :
    s.lexeme = ['\n'] ∧ s.literal = none ∧ s.holes = holes ∧
      ∀ c more, s.rest = c :: more → c ≠ '\x00' → Solid c more := by
  cases l with
  | code out l =>
    cases l with
    | @newline gap rest h =>
      refine ⟨rfl, rfl, rfl, fun c more hrest hc => ?_⟩
      apply solid_of_blankLength false (gap ++ rest) _ hc
      rw [h, List.drop_left]
      exact hrest
    | @word _ word rest => exact absurd (Option.some.inj hk ▸ wordKind_mem _ _) (by decide)
    | symbol _ _ found =>
      exact absurd (Option.some.inj hk ▸ (symbol?_eq_some found).2.2) (by decide)
    | blank => cases hk
    | comment => cases hk
    | number => cases hk
    | stray => cases hk
  | string => cases hk
  | hole => cases hk
  | missing => cases hk

theorem solid_of_isQuote (h : isQuote c) (more : List Char) : Solid c more := by
  rw [isQuote, Bool.or_eq_true, beq_iff_eq, beq_iff_eq] at h
  rcases h with rfl | rfl
  · exact ⟨by decide, by decide, by simp⟩
  · exact ⟨by decide, by decide, by simp⟩

theorem any_isQuote_of_templateTag {word : List Char}
    (h : wordKind word next = .templateTag) : next.any isQuote := by
  unfold wordKind at h
  split at h
  · cases h
  · split at h
    · rename_i kind found
      have keywords : ∀ kind ∈ TokenKind.keywords, kind ≠ .templateTag := by decide
      exact absurd h (keywords kind (List.mem_of_find?_eq_some found))
    · split at h
      · assumption
      · cases h

theorem Lexes.of_templateTag (l : Lexes holes cs s)
    (hk : s.kind = some .templateTag) : ∃ c more, s.rest = c :: more ∧ isQuote c := by
  cases l with
  | code out l =>
    cases l with
    | @word _ word rest =>
      have quoted := any_isQuote_of_templateTag (Option.some.inj hk)
      cases rest with
      | nil => cases quoted
      | cons c rest => exact ⟨c, rest, rfl, quoted⟩
    | symbol _ _ found =>
      exact absurd (Option.some.inj hk ▸ (symbol?_eq_some found).2.2) (by decide)
    | newline => cases hk
    | blank => cases hk
    | comment => cases hk
    | number => cases hk
    | stray => cases hk
  | string => cases hk
  | hole => cases hk
  | missing => cases hk

/-! ## Whole texts -/

theorem respaced_cons {t : Token} {ts : List Token} (h : ts ≠ []) :
    Token.respaced (t :: ts) =
      t.lexeme.toList ++ ((if t.kind = .templateTag then [] else [' ']) ++ Token.respaced ts) := by
  cases ts with
  | nil => exact absurd rfl h
  | cons next ts => rw [Token.respaced, List.append_assoc]

variable {steps : List Step}

theorem Run.respaced_solid (r : Run holes (c :: cs) steps final) (hp : ∀ s ∈ steps, s.problem = none) (h : Solid c cs)
    (file : String) (lo : Nat) :
    tokensOf file lo steps ≠ [] ∧
      ∃ more, Token.respaced (tokensOf file lo steps) = c :: more ∧ Solid c more := by
  cases r with
  | @step _ _ _ s steps l more =>
    obtain ⟨kind, text, hkind, hlexeme, hslash⟩ := l.of_solid h (hp s (by simp))
    rw [tokensOf, Step.token?, hkind]
    refine ⟨by simp, ?_⟩
    by_cases last : tokensOf file (s.next lo) steps = []
    · refine ⟨text, ?_, h.space, h.newline, fun hc => ?_⟩
      · simp [last, Token.respaced, hlexeme]
      · simp [(hslash hc).1]
    · refine ⟨text ++ ((if kind = .templateTag then [] else [' ']) ++
        Token.respaced (tokensOf file (s.next lo) steps)), ?_, h.space, h.newline, fun hc => ?_⟩
      · simp [respaced_cons last, hlexeme]
      · simp [(hslash hc).1, (hslash hc).2]

def Step.spelling? (s : Step) : Option (TokenKind × String × Option String) :=
  s.kind.map fun kind => (kind, String.ofList s.lexeme, s.literal.map String.ofList)

theorem outside_of_isSpace (h : isSpace c) (holes : List Hole) : Outside holes c := by
  simp only [isSpace, Bool.or_eq_true, beq_iff_eq] at h
  rcases h with (rfl | rfl) | rfl <;> exact ⟨by decide, by simp⟩

/-- Steps from `text` to `rest` that stand for the one step `s` of another text. -/
structure Front (holes : List Hole) (s : Step) (text rest : List Char) (front : List Step) : Prop where
  clean : ∀ t ∈ front, t.problem = none
  spelling : front.filterMap Step.spelling? = [s].filterMap Step.spelling?
  run : ∀ more final, Run s.holes rest more final → Run holes text (front ++ more) final

theorem Lexes.front {s t : Step} (l : Lexes holes text t)
    (hp : t.problem = none) (same : t.spelling? = s.spelling?) (hh : t.holes = s.holes) :
    Front holes s text t.rest [t] := by
  refine ⟨by simpa using hp, by simp only [List.filterMap_cons, same], fun more final r => ?_⟩
  exact .step l (hh ▸ r)

theorem Front.space {front : List Step} (h : Front holes s text (' ' :: rest) front) :
    Front holes s text rest
      (front ++ [{ kind := none, lexeme := [' '], rest, holes := s.holes }]) := by
  refine ⟨?_, ?_, fun more final r => ?_⟩
  · exact List.forall_mem_append.mpr ⟨h.clean, by simp⟩
  · rw [List.filterMap_append, h.spelling]
    simp [Step.spelling?]
  · rw [List.append_assoc]
    exact h.run _ _ (.step (.code (outside_of_isSpace rfl _) (.blank rfl)) r)

theorem Lexes.newline_front {cs : List Char}
    (l : Lexes holes cs s) (hk : s.kind = some .newline) (gap : List Char)
    (h : blankLength false (gap ++ rest) = gap.length) :
    ∃ front, Front holes s (s.lexeme ++ (gap ++ rest)) rest front := by
  obtain ⟨hlexeme, hliteral, hholes, _⟩ := l.of_newline hk
  have rule : Lexes holes ('\n' :: (gap ++ rest)) _ := .code ⟨by decide, by simp⟩ (.newline h)
  rw [hlexeme]
  refine ⟨_, rule.front rfl ?_ hholes.symm⟩
  rw [Step.spelling?, Step.spelling?, hk, hlexeme, hliteral]

theorem Run.exists_front (l : Lexes holes cs s) (r : Run s.holes s.rest steps final)
    (hq : Quoted holes) (hk : s.kind = some kind) (hproblem : s.problem = none)
    (hp : ∀ t ∈ steps, t.problem = none) (file : String) (lo : Nat) :
    ∃ front, Front holes s (Token.respaced (tokensOf file lo (s :: steps)))
      (Token.respaced (tokensOf file (s.next lo) steps)) front := by
  have again : ∀ tail : List Char, kind ≠ .newline → Follows kind tail.head? →
      ∃ front, Front holes s (s.lexeme ++ tail) tail front :=
    fun tail hn ht => ⟨_, (l.respaced hq hk hn ht).front hproblem rfl rfl⟩
  have solid : ∀ c more, s.rest = c :: more → Solid c more →
      tokensOf file (s.next lo) steps ≠ [] ∧
        ∃ more, Token.respaced (tokensOf file (s.next lo) steps) = c :: more ∧ Solid c more := by
    intro c more hrest h
    rw [hrest] at r
    exact r.respaced_solid hp h file _
  have tagged : kind = .templateTag → tokensOf file (s.next lo) steps ≠ [] ∧
      Follows kind (Token.respaced (tokensOf file (s.next lo) steps)).head? := by
    rintro rfl
    obtain ⟨c, more, hrest, hc⟩ := l.of_templateTag hk
    obtain ⟨hne, more', heq, _⟩ := solid c more hrest (solid_of_isQuote hc more)
    exact ⟨hne, heq ▸ .quote hc⟩
  have token : tokensOf file lo (s :: steps) =
      ⟨kind, String.ofList s.lexeme, s.literal.map String.ofList,
        ⟨lo, lo + Text.byteLength s.lexeme, file⟩⟩ :: tokensOf file (s.next lo) steps := by
    rw [tokensOf, Step.token?, hk]
    rfl
  rw [token]
  by_cases last : tokensOf file (s.next lo) steps = []
  · rw [last, Token.respaced, Token.respaced, String.toList_ofList, ← List.append_nil s.lexeme]
    by_cases hn : kind = .newline
    · subst hn
      exact l.newline_front hk [] rfl
    · exact again [] hn (.stop fun ht => (tagged ht).1 last)
  · rw [respaced_cons last, String.toList_ofList]
    by_cases ht : kind = .templateTag
    · rw [if_pos ht, List.nil_append]
      exact again _ (ht ▸ by decide) (tagged ht).2
    · rw [if_neg ht]
      by_cases hn : kind = .newline
      · subst hn
        refine l.newline_front hk [' '] ?_
        cases hrest : s.rest with
        | nil =>
          rw [hrest] at r
          cases r with
          | done => exact absurd rfl last
          | step l => cases l
        | cons c more =>
          have hc : c ≠ '\x00' := by
            rintro rfl
            exact r.head?_ne_nul hp (by rw [hrest]; rfl)
          obtain ⟨_, more', heq, h⟩ := solid c more hrest ((l.of_newline hk).2.2.2 c more hrest hc)
          have one : blankLength false (' ' :: c :: more') = 1 + blankLength false (c :: more') := rfl
          rw [heq, List.singleton_append, one, h.blankLength_eq_zero]
          rfl
      · obtain ⟨front, h⟩ := again (' ' :: Token.respaced (tokensOf file (s.next lo) steps)) hn (.space ht)
        exact ⟨_, h.space⟩

theorem Run.respaced (r : Run holes cs steps final) (hp : ∀ s ∈ steps, s.problem = none) (hq : Quoted holes)
    (file : String) (lo : Nat) :
    ∃ steps', Run holes (Token.respaced (tokensOf file lo steps)) steps' final ∧
      (∀ s ∈ steps', s.problem = none) ∧
      steps'.filterMap Step.spelling? = steps.filterMap Step.spelling? := by
  induction r generalizing lo with
  | done => exact ⟨[], .done, by simp, rfl⟩
  | @step holes final cs s steps l more ih =>
    obtain ⟨hproblem, hp⟩ := List.forall_mem_cons.mp hp
    obtain ⟨steps', r', hp', same⟩ := ih hp (l.quoted hq) (s.next lo)
    cases hk : s.kind with
    | none =>
      rw [l.holes_of_skip hk hproblem] at r'
      refine ⟨steps', ?_, hp', ?_⟩
      · rwa [tokensOf, Step.token?, hk]
      · rw [same, List.filterMap_cons, Step.spelling?, hk]
        rfl
    | some kind =>
      obtain ⟨front, h⟩ := Run.exists_front l more hq hk hproblem hp file lo
      refine ⟨front ++ steps', h.run _ _ r', ?_, ?_⟩
      · exact List.forall_mem_append.mpr ⟨h.clean, hp'⟩
      · rw [List.filterMap_append, h.spelling, same, ← List.filterMap_append]
        rfl

theorem map_spelling_tokensOf (file : String) (lo : Nat) (steps : List Step) :
    (tokensOf file lo steps).map Token.spelling = steps.filterMap Step.spelling? := by
  induction steps generalizing lo with
  | nil => rfl
  | cons s steps ih =>
    rw [tokensOf, List.map_append, ih, List.filterMap_cons, Step.token?, Step.spelling?]
    cases s.kind <;> rfl

end Scanner

/-- Lexemes with single spaces between them scan to the tokens that they came from. -/
theorem scan_respaced (source file file' : String) (h : (scan source file).diagnostics = []) :
    (scan (String.ofList (Token.respaced
        ((scan source file).tokens.filter (·.kind ≠ .eof)))) file').diagnostics = [] ∧
      (scan (String.ofList (Token.respaced
        ((scan source file).tokens.filter (·.kind ≠ .eof)))) file').tokens.map Token.spelling =
      (scan source file).tokens.map Token.spelling := by
  obtain ⟨steps, final, r⟩ := Scanner.exists_scan_run source
  obtain ⟨hp, hfinal⟩ := (r.scan_diagnostics file).mp h
  have body : (scan source file).tokens.filter (·.kind ≠ .eof) = Scanner.tokensOf file 0 steps := by
    rw [r.scan_tokens, List.filter_append, List.filter_eq_self.mpr]
    · simp
    · intro t ht
      simpa using (r.mem_tokensOf file [] ht).1
  rw [body]
  obtain ⟨steps', r', hp', same⟩ := r.respaced hp (by simp [Scanner.Quoted]) file 0
  rw [← String.toList_ofList (l := Token.respaced _)] at r'
  refine ⟨(r'.scan_diagnostics file').mpr ⟨hp', hfinal⟩, ?_⟩
  rw [r'.scan_tokens, r.scan_tokens, List.map_append, List.map_append,
    Scanner.map_spelling_tokensOf, Scanner.map_spelling_tokensOf, same]
  rfl

theorem scan_respaced_template :
    (scan "f=tag'a $\x7bx\n\n // end\n +1\x7d'//" "").diagnostics = [] ∧
      (scan "f = tag'a $\x7b x \n + 1 \x7d'" "").tokens.map Token.spelling =
        (scan "f=tag'a $\x7bx\n\n // end\n +1\x7d'//" "").tokens.map Token.spelling := by
  have clean : (scan "f=tag'a $\x7bx\n\n // end\n +1\x7d'//" "").diagnostics = [] := by
    decide +kernel
  have text : String.ofList (Token.respaced
      ((scan "f=tag'a $\x7bx\n\n // end\n +1\x7d'//" "").tokens.filter (·.kind ≠ .eof))) =
        "f = tag'a $\x7b x \n + 1 \x7d'" := by
    decide +kernel
  have same := (scan_respaced "f=tag'a $\x7bx\n\n // end\n +1\x7d'//" "" "" clean).2
  rw [text] at same
  exact ⟨clean, same⟩

end PhaseLang
