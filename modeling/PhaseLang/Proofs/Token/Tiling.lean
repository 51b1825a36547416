import PhaseLang.Proofs.Token.Steps

/-!
# Scans tile the source

A scan is a run of steps, and the lexemes and gaps of its steps, one after another, are the
source. `scan_tiles` says what follows for the tokens.
-/

namespace PhaseLang

variable {holes final : List Hole}

namespace Text

@[simp]
theorem byteLength_append (cs ds : List Char) : byteLength (cs ++ ds) = byteLength cs + byteLength ds := by
  induction cs with
  | nil => simp [byteLength]
  | cons c cs ih => rw [List.cons_append, byteLength, byteLength, ih, Nat.add_assoc]

theorem splitAtByte_append (cs ds : List Char) : splitAtByte (byteLength cs) (cs ++ ds) = (cs, ds) := by
  induction cs with
  | nil =>
    cases ds with
    | nil => rfl
    | cons d ds =>
      have := d.utf8Size_pos
      rw [byteLength, List.nil_append, splitAtByte, if_neg (by omega)]
  | cons c cs ih =>
    rw [byteLength, List.cons_append, splitAtByte, if_pos (by omega), Nat.add_sub_cancel_left, ih]

theorem slice?_append (before middle after : List Char) :
    slice? (byteLength before) (byteLength (before ++ middle)) (before ++ (middle ++ after)) =
      some middle := by
  have fits : byteLength before ≤ byteLength (before ++ middle) := by
    rw [byteLength_append]
    omega
  have rest : byteLength (before ++ middle) - byteLength before = byteLength middle := by
    rw [byteLength_append]
    omega
  rw [slice?, if_pos fits, rest]
  simp [cut?, splitAtByte_append]

theorem byteLength_toList (s : String) : byteLength s.toList = s.utf8ByteSize := by
  have bytes : ∀ cs : List Char, byteLength cs = (String.ofList cs).utf8ByteSize := by
    intro cs
    induction cs with
    | nil => rfl
    | cons c cs ih =>
      rw [byteLength, ih, show c :: cs = [c] ++ cs from rfl, String.ofList_append,
        String.utf8ByteSize_append, ← String.singleton_eq_ofList, String.utf8ByteSize_singleton]
  rw [bytes, String.ofList_toList]

end Text

variable {steps : List Step} {cs : List Char} {holes final : List Hole}

namespace Scanner

/-! ## Runs -/

inductive Run : List Hole → List Char → List Step → List Hole → Prop
  | done {holes : List Hole} : Run holes [] [] holes
  | step {holes final : List Hole} {cs : List Char} {s : Step} {steps : List Step}
      (h : Lexes holes cs s) (more : Run s.holes s.rest steps final) :
      Run holes cs (s :: steps) final

def Step.next (s : Step) (lo : Nat) : Nat :=
  lo + Text.byteLength s.lexeme + Text.byteLength s.gap

def tokensOf (file : String) : Nat → List Step → List Token
  | _, [] => []
  | lo, s :: steps => (s.token? file lo).toList ++ tokensOf file (s.next lo) steps

variable {s : Step}

theorem Lexes.rest_lt (h : Lexes holes cs s) : s.rest.length < cs.length := by
  have tiles := congrArg List.length h.tiles
  have pos := List.length_pos_iff.mpr h.lexeme_ne_nil
  simp only [List.length_append] at tiles
  omega

theorem exists_run (n : Nat) (holes : List Hole) (cs : List Char) (h : cs.length ≤ n) :
    ∃ steps final, Run holes cs steps final := by
  induction n generalizing holes cs with
  | zero =>
    obtain rfl := List.length_eq_zero_iff.mp (Nat.le_zero.mp h)
    exact ⟨[], holes, .done⟩
  | succ n ih =>
    cases cs with
    | nil => exact ⟨[], holes, .done⟩
    | cons c cs =>
      have step := lexes_lex holes c cs
      have lt := step.rest_lt
      rw [List.length_cons] at h lt
      obtain ⟨steps, final, more⟩ := ih (lex holes c cs).holes (lex holes c cs).rest (by omega)
      exact ⟨_, final, .step step more⟩

theorem Lexes.scanFrom_eq (l : Lexes holes cs s) (file : String) {n : Nat} (mark lo : Nat) (h : cs.length ≤ n) :
    ∃ m, s.rest.length ≤ m ∧ scanFrom file n mark lo holes cs =
      let tail := scanFrom file m lo (s.next lo) s.holes s.rest
      ⟨(s.token? file lo).toList ++ tail.tokens, (s.diagnostic? file lo).toList ++ tail.diagnostics⟩ := by
  have lt := l.rest_lt
  cases n with
  | zero => omega
  | succ n =>
    cases cs with
    | nil => simp at lt
    | cons c cs =>
      rw [scanFrom, l.lex_eq]
      exact ⟨n, by omega, rfl⟩

theorem Run.scanFrom_tokens (r : Run holes cs steps final) (file : String) (n mark lo : Nat) (h : cs.length ≤ n) :
    (scanFrom file n mark lo holes cs).tokens =
      tokensOf file lo steps ++
        [⟨.eof, "", none, ⟨lo + Text.byteLength cs, lo + Text.byteLength cs, file⟩⟩] := by
  induction r generalizing n mark lo with
  | done => cases n <;> rfl
  | @step holes final cs s steps l more ih =>
    obtain ⟨m, le, next⟩ := l.scanFrom_eq file mark lo h
    have ends : s.next lo + Text.byteLength s.rest = lo + Text.byteLength cs := by
      rw [l.tiles, Text.byteLength_append, Text.byteLength_append, Step.next]
      omega
    rw [next]
    simp only
    rw [ih m lo _ le, tokensOf, List.append_assoc, ← ends]

theorem Run.scanFrom_diagnostics (r : Run holes cs steps final) (file : String) (n mark lo : Nat) (h : cs.length ≤ n) :
    (scanFrom file n mark lo holes cs).diagnostics = [] ↔
      (∀ s ∈ steps, s.problem = none) ∧ final = [] := by
  induction r generalizing n mark lo with
  | done =>
    cases n <;> simp [scanFrom, finish]
  | @step holes final cs s steps l more ih =>
    obtain ⟨m, le, next⟩ := l.scanFrom_eq file mark lo h
    rw [next]
    simp only [List.append_eq_nil_iff, Option.toList_eq_nil_iff, List.forall_mem_cons, and_assoc]
    rw [ih m lo _ le, Step.diagnostic?, Option.map_eq_none_iff]

theorem Run.scan_tokens {source : String}
    (r : Run [] source.toList steps final) (file : String) :
    (scan source file).tokens = tokensOf file 0 steps ++
      [⟨.eof, "", none, ⟨source.utf8ByteSize, source.utf8ByteSize, file⟩⟩] := by
  rw [scan, r.scanFrom_tokens file _ 0 0 (Nat.le_refl _), Nat.zero_add, Text.byteLength_toList]

theorem Run.scan_diagnostics {source : String}
    (r : Run [] source.toList steps final) (file : String) :
    (scan source file).diagnostics = [] ↔ (∀ s ∈ steps, s.problem = none) ∧ final = [] :=
  r.scanFrom_diagnostics file _ 0 0 (Nat.le_refl _)

theorem exists_scan_run (source : String) : ∃ steps final, Run [] source.toList steps final :=
  exists_run source.toList.length [] source.toList (Nat.le_refl _)

/-! ## Spans -/

theorem mem_tokensOf_cons {file : String} {lo : Nat} {t : Token} :
    t ∈ tokensOf file lo (s :: steps) ↔
      s.token? file lo = some t ∨ t ∈ tokensOf file (s.next lo) steps := by
  rw [tokensOf, List.mem_append, Option.mem_toList]

theorem Run.mem_tokensOf (r : Run holes cs steps final) (file : String) (before : List Char) {t : Token}
    (ht : t ∈ tokensOf file (Text.byteLength before) steps) :
    t.kind ≠ .eof ∧ t.lexeme ≠ "" ∧ t.pos.file = file ∧
      Text.byteLength before ≤ t.pos.start ∧ t.pos.start ≤ t.pos.stop ∧
      t.pos.stop ≤ Text.byteLength (before ++ cs) ∧
      Text.slice? t.pos.start t.pos.stop (before ++ cs) = some t.lexeme.toList := by
  induction r generalizing before with
  | done => simp [tokensOf] at ht
  | @step holes final cs s steps l more ih =>
    rw [mem_tokensOf_cons] at ht
    rcases ht with ht | ht
    · obtain ⟨kind, hkind, rfl⟩ := Option.map_eq_some_iff.mp ht
      refine ⟨?_, ?_, rfl, Nat.le_refl _, Nat.le_add_right _ _, ?_, ?_⟩
      · rintro rfl
        exact l.kind_ne_eof hkind
      · intro empty
        have := congrArg String.toList empty
        rw [String.toList_ofList] at this
        exact l.lexeme_ne_nil this
      · rw [l.tiles]
        simp only [Text.byteLength_append]
        omega
      · rw [l.tiles, List.append_assoc s.lexeme, ← Text.byteLength_append, Text.slice?_append, String.toList_ofList]
    · have next : s.next (Text.byteLength before) = Text.byteLength (before ++ s.lexeme ++ s.gap) := by
        simp only [Text.byteLength_append, Step.next]
      have text : before ++ s.lexeme ++ s.gap ++ s.rest = before ++ cs := by
        rw [l.tiles]
        simp only [List.append_assoc]
      rw [next] at ht
      obtain ⟨hkind, hlexeme, hfile, hstart, hspan, hstop, hslice⟩ := ih (before ++ s.lexeme ++ s.gap) ht
      rw [text] at hstop hslice
      refine ⟨hkind, hlexeme, hfile, ?_, hspan, hstop, hslice⟩
      simp only [Text.byteLength_append] at hstart
      omega

theorem Run.pairwise_tokensOf (r : Run holes cs steps final) (file : String) (before : List Char) :
    (tokensOf file (Text.byteLength before) steps).Pairwise fun a b => a.pos.stop ≤ b.pos.start := by
  induction r generalizing before with
  | done => exact List.Pairwise.nil
  | @step holes final cs s steps l more ih =>
    have next : s.next (Text.byteLength before) = Text.byteLength (before ++ s.lexeme ++ s.gap) := by
      simp only [Text.byteLength_append, Step.next]
    rw [tokensOf, List.pairwise_append, next]
    refine ⟨?_, ih _, ?_⟩
    · cases s.token? file (Text.byteLength before) <;> simp
    · intro a ha b hb
      obtain ⟨kind, _, rfl⟩ := Option.map_eq_some_iff.mp (Option.mem_toList.mp ha)
      have start := (more.mem_tokensOf file _ hb).2.2.2.1
      simp only [Text.byteLength_append] at start
      simp only
      omega

/-! ## Gaps -/

/-- Blanks and comments in front of the text `next`. A comment runs up to a line break or
to the end of all text. -/
inductive Trivia (next : List Char) : List Char → Prop
  | nil : Trivia next []
  | blank {c : Char} {gap : List Char} (h : c ∈ [' ', '\t', '\r', '\n']) (more : Trivia next gap) :
      Trivia next (c :: gap)
  | comment {text gap : List Char} (line : '\n' ∉ text) (stop : ∀ c ∈ (gap ++ next).head?, c = '\n')
      (more : Trivia next gap) : Trivia next ('/' :: '/' :: (text ++ gap))

theorem Trivia.append {next gap more : List Char} (h : Trivia (more ++ next) gap)
    (hm : Trivia next more) : Trivia next (gap ++ more) := by
  induction h with
  | nil => exact hm
  | blank h _ ih => exact .blank h ih
  | comment line stop _ ih =>
    rw [List.cons_append, List.cons_append, List.append_assoc]
    exact .comment line (by rwa [List.append_assoc]) ih

theorem Trivia.congr_head? {next next' gap : List Char} (h : Trivia next gap)
    (heq : next.head? = next'.head?) : Trivia next' gap := by
  induction h with
  | nil => exact .nil
  | blank h _ ih => exact .blank h ih
  | comment line stop _ ih =>
    refine .comment line ?_ ih
    rw [List.head?_append, ← heq, ← List.head?_append]
    exact stop

theorem blank_of_isSpace {c : Char} (h : isSpace c) : c ∈ [' ', '\t', '\r', '\n'] := by
  simp only [isSpace, Bool.or_eq_true, beq_iff_eq] at h
  rcases h with (rfl | rfl) | rfl <;> simp

theorem eq_newline_of_endsComment {c : Char} (h : endsComment c) (hc : c ≠ '\x00') : c = '\n' := by
  simp only [endsComment, Bool.or_eq_true, beq_iff_eq] at h
  exact h.resolve_right hc

/-- The lines that a line break takes with it are blank or hold only a comment; inside a
comment, `text` is what stands before them on its line. -/
theorem trivia_blankLength (inComment : Bool) (cs text : List Char) (ht : '\n' ∉ text)
    (h : (cs.drop (blankLength inComment cs)).head? ≠ some '\x00') :
    Trivia (cs.drop (blankLength inComment cs))
      (if inComment then '/' :: '/' :: (text ++ cs.take (blankLength inComment cs))
        else cs.take (blankLength inComment cs)) := by
  fun_induction blankLength inComment cs generalizing text with
  | case1 inComment =>
    cases inComment with
    | false => exact .nil
    | true => exact .comment ht (by simp) .nil
  | case2 c cs hc ih =>
    obtain rfl := beq_iff_eq.mp hc
    rw [Nat.add_comm, List.drop_succ_cons] at h ⊢
    rw [List.take_succ_cons]
    exact .comment ht (by simp) (.blank (by simp) (ih [] (by simp) h))
  | case3 c cs hc hend =>
    have zero := eq_newline_of_endsComment hend (fun hz => h (by simp [hz]))
    exact absurd (beq_iff_eq.mpr zero) hc
  | case4 c cs hc hend ih =>
    rw [Nat.add_comm, List.drop_succ_cons] at h ⊢
    rw [List.take_succ_cons, List.append_cons]
    refine ih (text ++ [c]) ?_ h
    rw [List.mem_append, List.mem_singleton]
    rintro (hmem | rfl)
    · exact ht hmem
    · exact hc rfl
  | case5 cs ih =>
    rw [Nat.add_comm, List.drop_succ_cons, List.drop_succ_cons] at h ⊢
    rw [List.take_succ_cons, List.take_succ_cons]
    exact ih [] (by simp) h
  | case6 c cs _ hc ih =>
    rw [Nat.add_comm, List.drop_succ_cons] at h ⊢
    rw [List.take_succ_cons]
    have blank : c ∈ [' ', '\t', '\r', '\n'] := by
      rw [Bool.or_eq_true, beq_iff_eq] at hc
      rcases hc with rfl | hc
      · simp
      · exact blank_of_isSpace hc
    exact .blank blank (ih [] (by simp) h)
  | case7 => exact .nil

/-- A NUL character outside strings is a stray character. -/
theorem code_nul (holes : List Hole) (more : List Char) :
    Code holes '\x00' more
      { kind := none, lexeme := ['\x00'], problem := some (.unexpectedCharacter '\x00'), rest := more, holes } := by
  refine .stray ⟨by decide, by decide, by decide, by decide⟩ (by simp) ?_
  rw [symbol?, List.find?_eq_none]
  have heads : ∀ entry ∈ symbolTable, entry.1.head?.any (· ≠ '\x00') := by decide
  intro entry hmem hpre
  obtain ⟨rest, hrest⟩ := List.isPrefixOf_iff_prefix.mp hpre
  have head := heads entry hmem
  cases htext : entry.1 with
  | nil => simp [htext] at head
  | cons d text =>
    rw [htext] at head hrest
    simp [(List.cons.inj hrest).1] at head

theorem Lexes.head?_ne_nul (h : Lexes holes cs s)
    (hp : s.problem = none) : cs.head? ≠ some '\x00' := by
  intro hc
  obtain ⟨more, rfl⟩ := List.head?_eq_some_iff.mp hc
  rw [← h.lex_eq, lex_of_outside ⟨by decide, by simp⟩, (code_nul holes more).lexCode_eq] at hp
  exact absurd hp (by simp)

theorem Run.head?_ne_nul {cs : List Char} {steps : List Step}
    (r : Run holes cs steps final) (hp : ∀ s ∈ steps, s.problem = none) : cs.head? ≠ some '\x00' := by
  cases r with
  | done => simp
  | step l more => exact l.head?_ne_nul (hp _ (by simp))

theorem Lexes.trivia_lexeme (h : Lexes holes cs s)
    (hk : s.kind = none) (hp : s.problem = none) (hr : s.rest.head? ≠ some '\x00') :
    s.gap = [] ∧ Trivia s.rest s.lexeme := by
  cases h with
  | code out h =>
    cases h with
    | blank h => exact ⟨rfl, .blank (blank_of_isSpace h) .nil⟩
    | comment h stop =>
      rename_i text rest
      refine ⟨rfl, ?_⟩
      have line : '\n' ∉ text := fun hmem => absurd (h '\n' hmem) (by decide)
      have stops : ∀ c ∈ ([] ++ rest).head?, c = '\n' := by
        intro c hc
        exact eq_newline_of_endsComment (stop c hc) (fun hz => hr (hz ▸ hc))
      have trivia := Trivia.comment line stops .nil
      rw [List.append_nil] at trivia
      exact trivia
    | stray => exact absurd hp (by simp)
    | newline => exact absurd hk (by simp)
    | number => exact absurd hk (by simp)
    | word => exact absurd hk (by simp)
    | symbol => exact absurd hk (by simp)
  | string => exact absurd hk (by simp)
  | hole => exact absurd hk (by simp)
  | missing => exact absurd hp (by simp)

theorem Lexes.trivia_gap (h : Lexes holes cs s)
    (hr : s.rest.head? ≠ some '\x00') : Trivia s.rest s.gap := by
  cases h with
  | code out h =>
    cases h with
    | newline h =>
      rename_i gap rest
      have trivia := trivia_blankLength false (gap ++ rest) [] (by simp)
      rw [h, List.drop_left, List.take_left] at trivia
      exact trivia hr
    | _ => exact .nil
  | _ => exact .nil

end Scanner

namespace Token

def gaps : Nat → List Token → List (Nat × Token)
  | _, [] => []
  | lo, t :: ts => (lo, t) :: gaps t.pos.stop ts

end Token

namespace Scanner

/-- From a gap that is open when a run starts, every gap of the run holds trivia only. -/
theorem Run.trivia_gaps (r : Run holes cs steps final) (hp : ∀ s ∈ steps, s.problem = none) (file : String)
    (before gap : List Char) (hgap : Trivia cs gap) :
    ∀ g ∈ Token.gaps (Text.byteLength before)
      (tokensOf file (Text.byteLength (before ++ gap)) steps ++
        [⟨.eof, "", none, ⟨Text.byteLength (before ++ gap ++ cs), Text.byteLength (before ++ gap ++ cs), file⟩⟩]),
      ∃ text, Text.slice? g.1 g.2.pos.start (before ++ gap ++ cs) = some text ∧
        Trivia g.2.lexeme.toList text := by
  induction r generalizing before gap with
  | done =>
    intro g hg
    simp only [tokensOf, List.nil_append, Token.gaps, List.mem_singleton] at hg
    subst hg
    refine ⟨gap, ?_, hgap⟩
    have := Text.slice?_append before gap []
    simpa using this
  | @step holes final cs s steps l more ih =>
    obtain ⟨hproblem, hp⟩ := List.forall_mem_cons.mp hp
    have hrest := more.head?_ne_nul hp
    have text : before ++ gap ++ cs = before ++ gap ++ s.lexeme ++ s.gap ++ s.rest := by
      rw [l.tiles]
      simp only [List.append_assoc]
    have next : s.next (Text.byteLength (before ++ gap)) =
        Text.byteLength (before ++ gap ++ s.lexeme ++ s.gap) := by
      simp only [Step.next, Text.byteLength_append]
    rw [tokensOf, Step.token?, next, text]
    intro g hg
    cases hk : s.kind with
    | none =>
      obtain ⟨hsgap, trivia⟩ := l.trivia_lexeme hk hproblem hrest
      have longer : Trivia s.rest (gap ++ s.lexeme) := by
        refine Trivia.append (hgap.congr_head? ?_) trivia
        rw [l.tiles, hsgap, List.append_nil]
      have step := ih hp before (gap ++ s.lexeme) longer
      rw [← List.append_assoc before gap s.lexeme] at step
      rw [hk, hsgap, List.append_nil] at hg
      rw [hsgap, List.append_nil]
      exact step g hg
    | some kind =>
      rw [hk] at hg
      rcases List.mem_cons.mp hg with rfl | hg
      · refine ⟨gap, ?_, hgap.congr_head? ?_⟩
        · rw [← text, List.append_assoc]
          exact Text.slice?_append before gap cs
        · obtain ⟨c, lexeme, hlexeme⟩ := List.exists_cons_of_ne_nil l.lexeme_ne_nil
          rw [l.tiles, String.toList_ofList, hlexeme]
          rfl
      · have step := ih hp (before ++ gap ++ s.lexeme) s.gap (l.trivia_gap hrest) g
        rw [Text.byteLength_append (before ++ gap) s.lexeme] at step
        exact step hg

end Scanner

/-- The tokens of a scan tile the source: each stands for exactly the text of its span, the
spans run forwards, and one `eof` stands at the end. Where nothing was reported, only blanks
and comments lie between them. -/
theorem scan_tiles (source file : String) :
    (∃ body, (scan source file).tokens =
        body ++ [⟨.eof, "", none, ⟨source.utf8ByteSize, source.utf8ByteSize, file⟩⟩] ∧
      ∀ t ∈ body, t.kind ≠ .eof ∧ t.lexeme ≠ "") ∧
    (∀ t ∈ (scan source file).tokens,
      t.pos.file = file ∧ t.pos.start ≤ t.pos.stop ∧ t.pos.stop ≤ source.utf8ByteSize ∧
        t.pos.slice? source = some t.lexeme) ∧
    (scan source file).tokens.Pairwise (fun a b => a.pos.stop ≤ b.pos.start) ∧
    ((scan source file).diagnostics = [] →
      ∀ g ∈ Token.gaps 0 (scan source file).tokens,
        ∃ text, Text.slice? g.1 g.2.pos.start source.toList = some text ∧
          Scanner.Trivia g.2.lexeme.toList text) := by
  obtain ⟨steps, final, r⟩ := Scanner.exists_scan_run source
  have spans := fun t => r.mem_tokensOf file [] (t := t)
  have order := r.pairwise_tokensOf file []
  simp only [List.nil_append, Text.byteLength_toList] at spans
  rw [r.scan_tokens]
  refine ⟨⟨_, rfl, ?_⟩, ?_, ?_, ?_⟩
  · intro t ht
    exact ⟨(spans t ht).1, (spans t ht).2.1⟩
  · intro t ht
    rcases List.mem_append.mp ht with ht | ht
    · obtain ⟨_, _, hfile, _, hspan, hstop, hslice⟩ := spans t ht
      refine ⟨hfile, hspan, hstop, ?_⟩
      rw [Position.slice?, hslice, Option.map_some, String.ofList_toList]
    · rw [List.mem_singleton.mp ht]
      refine ⟨rfl, Nat.le_refl _, Nat.le_refl _, ?_⟩
      have empty := Text.slice?_append source.toList [] []
      simp only [List.append_nil, Text.byteLength_toList] at empty
      rw [Position.slice?, empty]
      rfl
  · rw [List.pairwise_append]
    refine ⟨order, List.pairwise_singleton _ _, ?_⟩
    intro a ha b hb
    rw [List.mem_singleton.mp hb]
    exact (spans a ha).2.2.2.2.2.1
  · intro reported
    have gaps := r.trivia_gaps ((r.scan_diagnostics file).mp reported).1 file [] [] .nil
    simp only [List.nil_append, Text.byteLength_toList] at gaps
    exact gaps

end PhaseLang
