import PhaseLang.Proofs.Grammar.Snippets

/-!
# Where violations are

The one violation that stops a parse is at a token of the source, and it is reported after what the
scanner has to say. Synthesized statements add none: their texts are written with names of the source,
and read as those statements.
-/

namespace PhaseLang

open PhaseLang.Parser

/-! ## Names of parameters -/

section
variable {row : List Token}

def Named (row : List Token) (kind : TokenKind) (x : String) : Prop := ∃ t ∈ row, t.kind = kind ∧ t.lexeme = x

namespace Grammar

variable {n : Nat} {r : Rules} (hr : r.Build (.along row) n)
include hr

theorem param_named (allowPromotion : Bool) {c : Cursor} (inRow : c.Over row) :
    wp (param r allowPromotion) (fun p d => d.Over row ∧ Named row .identifier p.name) c := by
  have behind {d : Cursor} (start : Token) (promoted : Bool) (inRow : d.Over row) :
      wp (do
        let name ← expect .identifier "a parameter name"
        let type ← annotation? r
        let default ← after? .equal r.expression
        return { name := name.lexeme, type, default, promoted, pos := ← spanFrom start : Param })
      (fun p d => d.Over row ∧ Named row .identifier p.name) d := by
    rw [wp_bind, wp_expect]
    intro isName
    have named : Named row .identifier d.peek.lexeme := ⟨d.peek, inRow.peek, isName, rfl⟩
    rw [wp_bind]
    refine wp_mono ((annotation?_builds hr).wp_over inRow.advance trivial) fun type d inRow => ?_
    rw [wp_bind]
    have value : Builds (.along row) (fun _ => false) (n + 1) [] (after? .equal r.expression) _ _ :=
      builds_after? rfl (fun _ => rfl) hr.expression.loosen
    refine wp_mono (value.wp_over inRow trivial) fun default d inRow => ?_
    rw [wp_bind, wp_spanFrom, wp_pure]
    exact ⟨inRow, named⟩
  unfold param
  rw [wp_bind, wp_peek]
  cases allowPromotion with
  | false => exact behind c.peek false inRow
  | true =>
    show wp (take .thisKw >>= _) _ c
    rw [wp_bind, wp_take]
    constructor
    · intro _
      show wp (expect .dot _ >>= _) _ c.advance
      rw [wp_bind, wp_expect]
      exact fun _ => behind c.peek true inRow.advance.advance
    · intro _
      exact behind c.peek false inRow

theorem params_named (allowPromotion : Bool) {c : Cursor} (inRow : c.Over row) :
    wp (params r allowPromotion) (fun ps d => d.Over row ∧ ∀ p ∈ ps, Named row .identifier p.name) c := by
  refine wp_parenthesized ⟨inRow, by simp⟩ (fun ps d h => ⟨⟨h.1.skipNewlines, h.2⟩, h.1.advance, h.2⟩) fun ps d h => ?_
  refine wp_mono (param_named hr allowPromotion h.1) fun p d' found => ⟨found.1, ?_⟩
  rw [List.forall_mem_append, List.forall_mem_singleton]
  exact ⟨h.2, found.2⟩

end Grammar

end

/-! ## Sources -/

theorem scan_file (source file : String) : ∀ t ∈ (scan source file).tokens, t.pos.file = file := by
  obtain ⟨steps, final, r⟩ := Scanner.exists_scan_run source
  rw [r.scan_tokens, List.forall_mem_append, List.forall_mem_singleton]
  exact ⟨fun t mem => (r.mem_tokensOf file [] mem).2.2.1, rfl⟩

theorem Named.word {source file x : String} {kind : TokenKind} (h : Named (scan source file).tokens kind x)
    (name : kind = .identifier ∨ kind = .typeIdentifier) : Scanner.Word kind x := by
  obtain ⟨t, mem, rfl, rfl⟩ := h
  exact scan_word mem name

def Grammar.ParamsOf (row : List Token) (ps : List Param) : Prop :=
  ps = [] ∨ ∃ n allowPromotion c d, c.Over row ∧ params (.upTo n) allowPromotion c = .ok (ps, d)

theorem Grammar.ParamsOf.named {row : List Token} {ps : List Param} (h : ParamsOf row ps) :
    ∀ p ∈ ps, Named row .identifier p.name := by
  rcases h with rfl | ⟨n, allowPromotion, c, d, inRow, run⟩
  · simp
  · exact (params_named (Rules.upTo_over row n) allowPromotion inRow ps d run).2

/-- A violation is at a token of the source, and it is reported once, behind what the scanner reports. The
texts of the statements that are synthesized from names in the source read as those statements. -/
theorem readSource_violation (source file : String) (nextId : Nat) :
    (∀ e, (readSource source file nextId).result = .error e →
      (∃ t ∈ (scan source file).tokens, e.pos = t.pos) ∧ e.pos.file = file ∧
      (readSource source file nextId).diagnostics = (scan source file).diagnostics ++ [e.diagnostic]) ∧
    (∀ ps, Grammar.ParamsOf (scan source file).tokens ps →
      (∀ p ∈ ps, Synthesis.Reads (Synthesis.promotionText p.name) Synthesis.promotionIds
        fun id => Synthesis.promotion id p.name) ∧
      ∀ enumName caseName index, Named (scan source file).tokens .typeIdentifier enumName →
        Named (scan source file).tokens .typeIdentifier caseName →
        Synthesis.Reads (Synthesis.factoryText enumName caseName index (ps.map (·.name)))
          (Synthesis.factoryIds (ps.map (·.name)))
          fun id => Synthesis.factory id enumName caseName index (ps.map (·.name))) := by
  constructor
  · intro e failed
    obtain ⟨ts, eof, tokens, row⟩ := scan_row source file
    have ends : ∀ t ∈ (scan source file).tokens.getLast?, t.kind = .eof := by
      simpa [tokens] using row.last
    have parsed : parse (scan source file).tokens nextId = .error e :=
      (readSource_result source file nextId).symm.trans failed
    have blamed := parse_runs ends nextId
    rw [parsed] at blamed
    obtain ⟨t, mem, pos⟩ := blamed
    refine ⟨⟨t, mem, pos⟩, pos ▸ scan_file source file t mem, ?_⟩
    unfold readSource
    simp only [parsed]
  · intro ps read
    have words : ∀ p ∈ ps, Scanner.Word .identifier p.name := fun p mem => (read.named p mem).word (.inl rfl)
    refine ⟨fun p mem => Synthesis.promotion_reads (words p mem), fun enumName caseName index isEnum isCase => ?_⟩
    refine Synthesis.factory_reads (isEnum.word (.inr rfl)) (isCase.word (.inr rfl)) ?_ index
    rw [List.forall_mem_map]
    exact words

/-- An enum that does not end, with one case. -/
theorem readSource_violation_enum :
    (∃ e, (readSource "enum E \x7b\n  A(x)" "" 0).result = .error e ∧ e.pos = ⟨15, 15, ""⟩ ∧
      (readSource "enum E \x7b\n  A(x)" "" 0).diagnostics = [e.diagnostic]) ∧
    Synthesis.Reads "this.x = x" 5 (fun id => Synthesis.promotion id "x") ∧
    Synthesis.Reads "\x7b return E(0, \x22A\x22, [x]) \x7d" 6 (fun id => Synthesis.factory id "E" "A" 0 ["x"]) := by
  obtain ⟨violated, read⟩ := readSource_violation "enum E \x7b\n  A(x)" "" 0
  have tokens : (scan "enum E \x7b\n  A(x)" "").tokens =
      [⟨.enumKw, "enum", none, ⟨0, 4, ""⟩⟩, ⟨.typeIdentifier, "E", none, ⟨5, 6, ""⟩⟩,
        ⟨.leftBrace, "\x7b", none, ⟨7, 8, ""⟩⟩,
        ⟨.newline, "\n", none, ⟨8, 9, ""⟩⟩, ⟨.typeIdentifier, "A", none, ⟨11, 12, ""⟩⟩,
        ⟨.leftParen, "(", none, ⟨12, 13, ""⟩⟩,
        ⟨.identifier, "x", none, ⟨13, 14, ""⟩⟩, ⟨.rightParen, ")", none, ⟨14, 15, ""⟩⟩,
        ⟨.eof, "", none, ⟨15, 15, ""⟩⟩] := by
    decide +kernel
  have quiet : (scan "enum E \x7b\n  A(x)" "").diagnostics = [] := by decide +kernel
  have params : Grammar.ParamsOf (scan "enum E \x7b\n  A(x)" "").tokens [⟨"x", none, none, false, ⟨13, 14, ""⟩⟩] := by
    rw [tokens]
    refine .inr ⟨1, false, ⟨⟨.leftParen, "(", none, ⟨12, 13, ""⟩⟩, [⟨.identifier, "x", none, ⟨13, 14, ""⟩⟩,
      ⟨.rightParen, ")", none, ⟨14, 15, ""⟩⟩], ⟨.eof, "", none, ⟨15, 15, ""⟩⟩, false, false, 0⟩, _, ?_, rfl⟩
    exact ⟨by simp, by simp, by simp⟩
  obtain ⟨promotion, factory⟩ := read _ params
  refine ⟨?_, promotion _ List.mem_cons_self, factory "E" "A" 0 ?_ ?_⟩
  · have failed : ((parse (scan "enum E \x7b\n  A(x)" "").tokens 0).violation?.map (·.pos)) = some ⟨15, 15, ""⟩ := by
      rw [tokens]
      rfl
    obtain ⟨e, found, pos⟩ := Option.map_eq_some_iff.mp failed
    have result : (readSource "enum E \x7b\n  A(x)" "" 0).result = .error e :=
      (readSource_result ..).trans (Parsed.eq_error found)
    refine ⟨e, result, pos, ?_⟩
    simpa [quiet] using (violated e result).2.2
  all_goals
    rw [tokens]
    simp [Named]

end PhaseLang
