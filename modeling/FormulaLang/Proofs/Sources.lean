import FormulaLang.Proofs.RoundTrip

/-!
# FormulaLang.Proofs.Sources

The trees that have a source. `Program.source` writes any program as a text: its numbers as
numerals, an infinite one as a numeral too large for a finite double. Where every node is `Written`
the text is read as the program (`parse_source`), and whatever was read has such nodes only. Main
statement: `parsed_iff_written`.
-/

namespace FormulaLang

open FormulaLang.Expr Token

/-! ## Literals -/

/-- Ten to the power of 309, which is nearer to infinity than to a finite double. -/
def overlong : List Char := '1' :: List.replicate 309 '0'

/-- A numeral for a double that is not negative. -/
def literal (x : Float) : String :=
  if x.isFinite then Decimal.magnitudeText (Binary64.magnitude x) else .ofList overlong

def literalTokens (x : Float) : List Token := [.number (literal x)]

theorem numeral_overlong : Decimal.Numeral overlong := by
  refine (Decimal.numeral_digits_iff ?_).mpr (List.cons_ne_nil _ _)
  rw [overlong, List.forall_mem_cons]
  exact ⟨rfl, fun c hc => Decimal.isDigit_of_mem_zeros hc⟩

theorem word_overlong : (Decimal.numeral overlong).word = Binary64.infinityWord := by
  decide +kernel

theorem numeral_literal (x : Float) : Decimal.Numeral (literal x).toList := by
  rw [literal]
  split
  · rename_i hfinite
    exact (Decimal.numeral_magnitudeText (Binary64.isFinite_iff.mp hfinite)).1
  · rw [String.toList_ofList]
    exact numeral_overlong

theorem lexical_literal (x : Float) : (Token.number (literal x)).Lexical := by
  obtain ⟨c, hc, -⟩ := (numeral_literal x).digit
  exact ⟨List.ne_nil_of_mem hc, (numeral_literal x).chars⟩

theorem spellsNumbers_literalTokens : SpellsNumbers literalTokens where
  lexical x := List.forall_mem_singleton.mpr (lexical_literal x)
  not_quoted x := List.forall_mem_singleton.mpr nofun
  head x cs := by
    rw [literalTokens, spell_cons, spell_nil, List.append_nil]
    exact head_number (lexical_literal x) cs
  separated x cs hcs := ⟨fun c hc => (hcs c hc).2, trivial⟩

/-! ## Sources -/

/-- A text of the program, without blanks. -/
def Program.source (p : Program) : String :=
  .ofList (spell (Expr.speltAll literalTokens .semicolon p))

namespace Grammar

theorem renumbers_id : Renumbers id where
  var _ := rfl
  assign _ _ := rfl
  binary _ _ _ := rfl
  call name es := congrArg (Expr.call name) (List.map_id es).symm
  quote p := congrArg Expr.quote (List.map_id p).symm

theorem primary_literal {x : Float} (hx : x.isNaN = false)
    (hsign : Binary64.isNegative x = false) : Primary (literalTokens x) (.num x) := by
  by_cases hfinite : x.isFinite = true
  · rw [literalTokens, literal, if_pos hfinite]
    exact number_of_magnitude hsign hfinite
  · have hvalue : (Decimal.numeral overlong).toFloat = x := by
      have hword := Binary64.ofWord_magnitude x
      rw [hsign, Binary64.magnitude_of_not_finite hx hfinite] at hword
      rw [Decimal.toFloat, word_overlong, hword]
    have hprimary := Primary.number (numeral_literal x)
    rw [literal, if_neg hfinite, String.toList_ofList, hvalue] at hprimary
    rwa [literalTokens, literal, if_neg hfinite]

theorem strip_source {p : Program} (h : EverywhereIn Written p) :
    Text.strip p.source = p.source := by
  have hn := everywhereIn_mono (fun _ => Written.named) h
  have hu := everywhereIn_mono (fun _ => Written.unnested) h
  have hsolid := solid_speltAll spellsNumbers_literalTokens separator_semicolon hn hu
  apply Text.strip_eq_self
  rw [Program.source, String.toList_ofList]
  intro c hc
  obtain ⟨t, ht, hc⟩ := List.mem_flatMap.mp hc
  exact (hsolid t ht).visible c hc

/-- A program of written nodes has a source. -/
theorem parse_source {p : Program} (h : EverywhereIn Written p) :
    Program.parse p.source = .ok p := by
  have hder := (derives_speltAll spellsNumbers_literalTokens renumbers_id
    (fun _ hx hsign => primary_literal hx hsign) h).2
  rw [List.map_id] at hder
  rw [parse_eq_ok_iff_derives, strip_source h, Program.source, String.toList_ofList,
    scan_text spellsNumbers_literalTokens h]
  exact ⟨_, rfl, hder⟩

/-- **The trees that have a source.** Their names are names to the scanner, their numbers are
numbers without a sign, infinity among them, no assignment is an operand or an assigned value, and
no quote is inside another. -/
theorem parsed_iff_written (p : Program) :
    (∃ s, Program.parse s = .ok p) ↔
      (∀ e ∈ p.nodes, ∀ name ∈ e.names, isName name = true) ∧
      (∀ x, .num x ∈ p.nodes → x.isNaN = false ∧ Binary64.isNegative x = false) ∧
      (∀ e ∈ p.nodes, ∀ c ∈ e.operands, c.isAssign = false) ∧
      ∀ q, .quote q ∈ p.nodes → ∀ c ∈ Program.nodes q, c.isQuote = false := by
  constructor
  · rintro ⟨s, h⟩
    have hwritten := written_of_parse h
    refine ⟨fun e he => (hwritten e he).named, fun x hx => ?_, fun e he => (hwritten e he).fit.2,
      fun q hq => (hwritten _ hq).unnested q rfl⟩
    exact ⟨(hwritten _ hx).numeric x rfl, (hwritten _ hx).fit.1 x rfl⟩
  · rintro ⟨hnames, hnumbers, hplaces, hquotes⟩
    refine ⟨p.source, parse_source fun n hn => ⟨hnames n hn, ?_, ?_, ?_, hplaces n hn⟩⟩
    · rintro q rfl
      exact hquotes q hn
    · rintro x rfl
      exact (hnumbers x hn).1
    · rintro x rfl
      exact (hnumbers x hn).2

end Grammar
end FormulaLang
