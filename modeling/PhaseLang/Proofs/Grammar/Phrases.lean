import PhaseLang.Proofs.Grammar.AgreementDeclarations
import PhaseLang.Proofs.Grammar.Numbering
import PhaseLang.Proofs.Grammar.Starts

/-!
# Words of programs

The texts among the tokens of a scan are clean. A reading agrees with itself, so it keeps them clean, and the
wording of what was read from a source is clean.
-/

namespace PhaseLang

namespace Scanner

/-! ## Clean tokens -/

theorem escapesClosed_fragment (quote : Char) (cs : List Char) (closed : (fragmentLength quote cs).2 ≠ .missing) :
    escapesClosed (cs.take (fragmentLength quote cs).1) = true := by
  fun_induction fragmentLength quote cs with
  | case1 => simp at closed
  | case2 => simp at closed
  | case3 d cs n e found ih =>
    rw [found] at ih
    simpa [escapesClosed] using ih closed
  | case4 => rfl
  | case5 => rfl
  | case6 c cs noEnd noEscape _ _ n e found ih =>
    rw [found] at ih
    have plain := not_escape noEnd noEscape
    simpa [escapesClosed, plain] using ih closed

theorem escapesClosed_content {quote : Char} {content more : List Char} {e : FragmentEnd} (closed : e ≠ .missing)
    (h : fragmentLength quote (content ++ more) = (content.length, e)) : escapesClosed content = true := by
  have front := escapesClosed_fragment quote (content ++ more) (by rw [h]; exact closed)
  rwa [h, List.take_left] at front

theorem isNumber_front (cs : List Char) : ∀ d ∈ cs.take (numberLength cs), isDigit d = true ∨ d = '.' := by
  obtain ⟨whole, after, rfl, hw, ha⟩ := exists_span isDigit cs
  rw [numberLength_span hw ha, List.take_length_add_append]
  intro d hd
  rcases List.mem_append.mp hd with hd | hd
  · exact .inl (hw d hd)
  unfold fractionLength at hd
  split at hd
  · rename_i first more _
    split at hd
    · rename_i digit
      obtain ⟨fraction, rest, rfl, hf, hr⟩ := exists_span isDigit more
      rw [takeWhile_span hf hr, Nat.add_comm 2, List.take_succ_cons, List.take_succ_cons, List.take_left] at hd
      rcases List.mem_cons.mp hd with rfl | hd
      · exact .inr rfl
      rcases List.mem_cons.mp hd with rfl | hd
      · exact .inl digit
      · exact .inl (hf d hd)
    · simp at hd
  · simp at hd

theorem isText_wordKind (word : List Char) (next : Option Char) : (wordKind word next).isText = false := by
  have keywords : ∀ kind ∈ TokenKind.keywords, kind.isText = false := by decide
  unfold wordKind
  split
  · rfl
  · split
    · rename_i found
      exact keywords _ (List.mem_of_find?_eq_some found)
    · split <;> rfl

theorem head_of_identifier {word : List Char} {next : Option Char} (h : wordKind word next = .identifier) :
    word.head?.any isUpper = false := by
  unfold wordKind at h
  split at h
  · cases h
  · rename_i lower
    simpa using lower

theorem Lexes.clean {holes : List Hole} {cs : List Char} {s : Step} (h : Lexes holes cs s) {file : String} {lo : Nat}
    {t : Token} (found : s.token? file lo = some t) : t.Clean := by
  obtain ⟨kind, hkind, rfl⟩ := Option.map_eq_some_iff.mp found
  cases h with
  | @code c _ _ out h =>
    cases h with
    | blank | comment | stray => simp at hkind
    | newline =>
      cases hkind
      exact .of_plain rfl (by simp [TokenKind.isName]) (by simp)
    | @number _ digits rest h length =>
      cases hkind
      refine .of_number rfl ⟨by simp, fun d hd => isNumber_front (c :: (digits ++ rest)) d ?_⟩
      rw [length, ← List.cons_append, ← List.length_cons (a := c), List.take_left]
      simpa using hd
    | @word _ word rest h part stop =>
      cases hkind
      refine .of_plain (isText_wordKind ..) (fun _ => ⟨by simp, ?_⟩) fun name => ?_
      · simpa [isWordPart, h] using part
      · simpa using head_of_identifier name
    | symbol h slash spelled =>
      cases hkind
      have symbols : ∀ kind ∈ TokenKind.symbols, kind.isText = false ∧ kind.isName = false ∧ kind ≠ .identifier := by
        decide
      obtain ⟨plain, noName, other⟩ := symbols _ (symbol?_eq_some spelled).2.2
      exact .of_plain plain (fun name => absurd name (by simp [noName])) fun name => absurd name other
  | @string c quote outer content rest o h =>
    cases hkind
    rw [List.append_assoc] at h
    exact .of_string (by simp) (by simpa [Token.text] using escapesClosed_content (by simp) h)
  | @hole c quote outer content rest o h =>
    cases hkind
    rw [List.append_assoc] at h
    exact .of_string (by simp) (by simpa [Token.text] using escapesClosed_content (by simp) h)
  | missing => simp at hkind

theorem Run.clean {holes final : List Hole} {cs : List Char} {steps : List Step} (r : Run holes cs steps final)
    (file : String) (lo : Nat) : ∀ t ∈ tokensOf file lo steps, t.Clean := by
  induction r generalizing lo with
  | done => simp [tokensOf]
  | step l more ih =>
    intro t ht
    rcases mem_tokensOf_cons.mp ht with found | later
    · exact l.clean found
    · exact ih _ t later

end Scanner

theorem scan_clean (source file : String) : ∀ t ∈ (scan source file).tokens, t.Clean := by
  obtain ⟨steps, final, r⟩ := Scanner.exists_scan_run source
  rw [r.scan_tokens]
  intro t ht
  rcases List.mem_append.mp ht with ht | ht
  · exact r.clean file 0 t ht
  · obtain rfl := List.mem_singleton.mp ht
    exact .of_plain rfl (by simp [TokenKind.isName]) (by simp)

/-! ## Clean programs -/

theorem readSource_clean {source file : String} {nextId next : Nat} {program : List Stmt}
    (h : (readSource source file nextId).result = .ok (program, next)) :
    Fits Wording.Clean (Worded.ofStmts program) := by
  rw [readSource_result] at h
  obtain ⟨ts, eof, tokens, row⟩ := scan_row source file
  rw [tokens] at h
  let B : Bond := ⟨true, ⟨id, id⟩, ⟨id, id⟩, true, false⟩
  have like : List.Forall₂ B.Tokens (ts ++ [eof]) (ts ++ [eof]) :=
    List.forall₂_same.mpr fun t ht => ⟨rfl, rfl, rfl, rfl, fun _ => scan_clean source file t (tokens ▸ ht)⟩
  obtain ⟨_, _, _, _, read, -, -, words⟩ | ⟨_, _, failed, -⟩ :=
    parse_agrees (B := B) rfl rfl row.last row.only like fun _ => rfl
  · cases read.symm.trans h
    exact fun w hw => words w hw rfl
  · cases failed.symm.trans h

theorem readSource_spelled {source file : String} {nextId next : Nat} {program : List Stmt}
    (h : (readSource source file nextId).result = .ok (program, next)) :
    Fits Citation.Spelled (Cited.ofStmts program) :=
  Cited.ofStmts_spelled _ (readSource_clean h)

end PhaseLang
