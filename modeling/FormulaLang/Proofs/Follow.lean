import FormulaLang.Proofs.Fit
import FormulaLang.Proofs.Phase

/-!
# FormulaLang.Proofs.Follow

Following the rendered text of a tree from phase to phase. If it can be followed, the tree is fit
and has no quote inside a quote, and its text is passed with an operand complete (`follow`).

Of a quote inside a quote nothing can be read. The scanner ends the outer quote where the inner one
begins (`hidden`), so the inner program stands behind a complete operand, unquoted. It begins like an
operand, or with a negative number, of which the sign is taken for an operator; then the mark behind
the inner program comes where an operand has just ended (`stuck_behind_operand`).
-/

namespace FormulaLang
namespace Grammar

open FormulaLang.Expr Token

/-! ## Marks and first characters -/

theorem stuck_mark {φ : Phase} (h : φ.opens = false) (cs : List Char) :
    φ.run (Item.scan ('"' :: cs)) = none := by
  have hquoted : ∀ payload, φ.step (.quoted payload) = none := by
    intro payload
    cases φ <;> cases h <;> rfl
  rw [Item.scan_cons, Item.scanFirst, if_neg (by decide), if_neg (by decide), if_pos rfl,
    Item.scanQuoted]
  split
  · rfl
  · exact Phase.run_stuck (hquoted _) _

/-- A character that begins an operand, and nothing else. -/
def Starts (c : Char) : Prop := isNumberChar c = true ∨ isNameStart c = true ∨ c = '"' ∨ c = '('

theorem stuck_start {c : Char} (h : Starts c) (cs : List Char) :
    Phase.done.run (Item.scan (c :: cs)) = none := by
  rw [Item.scan_cons, Item.scanFirst]
  split
  · rfl
  rename_i hnumber
  split
  · rfl
  rename_i hname
  split
  · rw [Item.scanQuoted]
    split <;> rfl
  · rename_i hmark
    rcases h with h | h | h | rfl
    · exact absurd h hnumber
    · exact absurd h hname
    · exact absurd h hmark
    · rfl

theorem starts_name {name : String} (h : isName name = true) (cs : List Char) :
    ∃ c rest, name.toList ++ cs = c :: rest ∧ Starts c := by
  obtain ⟨c, rest, hname, hc, -⟩ := Item.isName_iff.mp h
  exact ⟨c, rest ++ cs, by rw [hname]; rfl, .inr (.inl hc)⟩

theorem starts_magnitude {w : Nat} (h : w ≤ Binary64.infinityWord) (cs : List Char) :
    ∃ c rest, (magnitudeToken w).text.toList ++ cs = c :: rest ∧ Starts c := by
  have hlexical := lexical_magnitudeToken h
  rw [magnitudeToken] at hlexical ⊢
  split
  · exact @starts_name "inf" rfl cs
  · rename_i hinf
    rw [if_neg hinf] at hlexical
    obtain ⟨c, rest, htext⟩ := List.exists_cons_of_ne_nil hlexical.1
    have hc := hlexical.2 c (by rw [htext]; exact List.mem_cons_self)
    exact ⟨c, rest ++ cs, by rw [Token.text, htext]; rfl, .inl hc⟩

/-- A tree is a negative number, or its text starts an operand. -/
theorem starts_tokens {e : Expr} (hn : Everywhere Named e) (hx : Everywhere Numeric e)
    (cs : List Char) :
    (∃ x, e = .num x ∧ floatTokens x = [.operator .sub, magnitudeToken (Binary64.magnitude x)]) ∨
      ∃ c rest, spell e.tokens ++ cs = c :: rest ∧ Starts c := by
  cases e with
  | num x =>
    simp only [everywhere_num, numeric_num] at hx
    rw [Expr.tokens, floatTokens, if_neg (Bool.eq_false_iff.mp hx)]
    split
    · rename_i hsign
      exact .inl ⟨x, rfl, by
        rw [floatTokens, if_neg (Bool.eq_false_iff.mp hx), if_pos hsign]⟩
    · right
      rw [spell_cons, List.append_assoc]
      exact starts_magnitude (Binary64.magnitude_le_of_isNaN (Bool.eq_false_iff.mp hx)) _
  | var name =>
    simp only [everywhere_var, named_var] at hn
    right
    rw [Expr.tokens, spell_cons, List.append_assoc]
    exact starts_name hn _
  | assign name value =>
    simp only [everywhere_assign, named_assign] at hn
    right
    rw [Expr.tokens, spell_cons, List.append_assoc]
    exact starts_name hn.1 _
  | binary op left right => exact .inr ⟨'(', _, rfl, .inr (.inr (.inr rfl))⟩
  | call name es =>
    simp only [everywhere_call, named_call] at hn
    right
    rw [Expr.tokens, spell_cons, List.append_assoc]
    exact starts_name hn.1 _
  | quote p =>
    refine .inr ⟨'"', spell (Expr.tokensOf .semicolon p) ++ '"' :: cs, ?_, .inr (.inr (.inl rfl))⟩
    simp [Expr.tokens, Token.text]

theorem scan_head {t : Token} {ts : List Token} {cs : List Char} (h : t.Lexical)
    (hs : Separated (t :: ts) cs) :
    Item.scan (spell (t :: ts) ++ cs) = .token t :: Item.scan (spell ts ++ cs) := by
  rw [spell_cons, List.append_assoc]
  exact Item.scan_token h hs.1

theorem ends_mark (cs : List Char) : Ends ('"' :: cs) := by
  intro c hc
  cases hc
  exact ⟨rfl, rfl⟩

/-! ## Doubles -/

theorem step_magnitudeToken {φ : Phase} (h : φ.opens = true) (w : Nat) :
    ∃ ψ, φ.step (magnitudeToken w) = some ψ ∧ ψ.opens = false := by
  rw [magnitudeToken]
  split
  · obtain ⟨ψ, hψ, hends, -⟩ := Phase.step_identifier h "inf"
    exact ⟨ψ, hψ, hends⟩
  · exact ⟨.done, Phase.step_number h _, rfl⟩

/-- A sign is no start of an operand. -/
theorem step_sub {φ : Phase} (h : φ.opens = true) (op : Operator) : φ.step (.operator op) = none := by
  cases φ <;> cases h <;> rfl

theorem fit_of_run_float {x : Float} (hx : x.isNaN = false) {φ ψ : Phase} (hφ : φ.opens = true)
    (h : φ.run ((floatTokens x).map .token) = some ψ) :
    ψ.opens = false ∧ Binary64.isNegative x = false := by
  rw [floatTokens, if_neg (Bool.eq_false_iff.mp hx)] at h
  split at h
  · rw [List.map_cons, Phase.run_stuck (step_sub hφ _)] at h
    cases h
  · rename_i hsign
    obtain ⟨χ, hχ, hends⟩ := step_magnitudeToken hφ (Binary64.magnitude x)
    rw [List.map_singleton, Phase.run_token hχ] at h
    cases h
    exact ⟨hends, Bool.eq_false_iff.mpr hsign⟩

/-! ## Trees -/

theorem quotable_tokens {e : Expr} (hn : Everywhere Named e)
    (hq : Everywhere (fun c => c.isQuote = false) e) :
    ∀ c ∈ spell e.tokens, isQuotable c = true := by
  have hu := everywhere_mono (fun _ => unnested_of_isQuote) hq
  intro c hc
  exact (plain_spell (lexical_tokens hn hu) (not_quoted_of_isQuote hq) c hc).2

theorem quotable_tokensOf {p : Program} (hn : EverywhereIn Named p)
    (hq : EverywhereIn (fun c => c.isQuote = false) p) :
    ∀ c ∈ spell (Expr.tokensOf .semicolon p), isQuotable c = true := by
  have hu := everywhereIn_mono (fun _ => unnested_of_isQuote) hq
  intro c hc
  exact (plain_spell (lexical_tokensOf separator_semicolon hn hu)
    (not_quotedOf_of_isQuote separator_semicolon hq) c hc).2

theorem scan_mark {front : List Char} (h : ∀ c ∈ front, isQuotable c = true) (cs : List Char) :
    Item.scan ('"' :: (front ++ '"' :: cs)) =
      .token (.quoted (.ofList front)) :: Item.scan cs := by
  have hscan := @Item.scan_quoted (.ofList front) cs (by rwa [String.toList_ofList])
  rwa [String.toList_ofList] at hscan

/-- The sign of a negative number behind an operand is an operator, and the number its operand. -/
theorem minus_behind_operand {x : Float}
    (h : floatTokens x = [.operator .sub, magnitudeToken (Binary64.magnitude x)]) {cs : List Char}
    (hcs : Ends cs) :
    ∃ χ : Phase, χ.opens = false ∧
      Phase.done.run (Item.scan (spell (floatTokens x) ++ cs)) = χ.run (Item.scan cs) := by
  obtain ⟨χ, hχ, hends⟩ :=
    step_magnitudeToken (Eq.refl Phase.operand.opens) (Binary64.magnitude x)
  refine ⟨χ, hends, ?_⟩
  rw [Item.scan_spell (lexical_floatTokens x) (separated_floatTokens x hcs), h, List.map_cons,
    List.cons_append, Phase.run_token (Phase.step_operator rfl _), List.map_singleton,
    List.singleton_append, Phase.run_token hχ]

/-- Behind plain characters a mark stands, from which on nothing can follow an operand. -/
def Hides (text : List Char) : Prop :=
  ∃ front rest, text = front ++ '"' :: rest ∧ (∀ c ∈ front, isQuotable c = true) ∧
    Phase.done.run (Item.scan rest) = none

theorem Hides.behind {text : List Char} (h : Hides text) {front : List Char}
    (hfront : ∀ c ∈ front, isQuotable c = true) : Hides (front ++ text) := by
  obtain ⟨front', rest, htext, hplain, hstuck⟩ := h
  refine ⟨front ++ front', rest, by rw [htext, List.append_assoc], ?_, hstuck⟩
  intro c hc
  rcases List.mem_append.mp hc with hc | hc
  · exact hfront c hc
  · exact hplain c hc

theorem Hides.behind_token {text : List Char} (h : Hides text) {t : Token} (ht : t.Lexical)
    (hq : ∀ payload, t ≠ .quoted payload) : Hides (t.text.toList ++ text) :=
  h.behind fun c hc => (plain_of_lexical ht hq c hc).2

mutual

/-- From a phase that opens an operand, a text that can be followed is that of a fit tree, and the
rest of it is followed from behind an operand. -/
theorem follow : ∀ {e : Expr}, Everywhere Named e → Everywhere Numeric e →
    ∀ {φ ψ : Phase} {cs : List Char}, φ.opens = true → Ends cs →
      φ.run (Item.scan (spell e.tokens ++ cs)) = some ψ →
      (Everywhere Unnested e ∧ Everywhere Fit e ∧ (φ = .operand → e.isAssign = false)) ∧
        ∃ χ : Phase, χ.opens = false ∧ χ.run (Item.scan cs) = some ψ
  | .num x, _, hx, φ, ψ, cs, hφ, hcs, h => by
    simp only [everywhere_num, numeric_num] at hx
    rw [Expr.tokens, Item.scan_spell (lexical_floatTokens x) (separated_floatTokens x hcs)] at h
    obtain ⟨χ, hχ, h⟩ := Phase.run_append_eq_some h
    obtain ⟨hends, hsign⟩ := fit_of_run_float hx hφ hχ
    simp only [everywhere_num, fit_num]
    exact ⟨⟨unnested_of_isQuote rfl, hsign, fun _ => rfl⟩, χ, hends, h⟩
  | .var name, hn, _, φ, ψ, cs, hφ, hcs, h => by
    have hs := separated_tokens hn hcs
    simp only [everywhere_var, named_var] at hn
    rw [Expr.tokens, scan_head (t := .identifier name) hn hs] at h
    obtain ⟨χ, hχ, hends, -⟩ := Phase.step_identifier hφ name
    rw [Phase.run_token hχ] at h
    simp only [everywhere_var, fit_var]
    exact ⟨⟨unnested_of_isQuote rfl, trivial, fun _ => rfl⟩, χ, hends, h⟩
  | .assign name value, hn, hx, φ, ψ, cs, hφ, hcs, h => by
    have hs := separated_tokens hn hcs
    simp only [everywhere_assign, named_assign] at hn hx
    rw [Expr.tokens, scan_head (t := .identifier name) hn.1 hs,
      scan_head (t := .assign) trivial hs.2] at h
    cases φ with
    | statement =>
      obtain ⟨⟨hu, hfit, hassign⟩, hrest⟩ :=
        follow hn.2 hx.2 (Eq.refl Phase.operand.opens) hcs h
      simp only [everywhere_assign, fit_assign]
      exact ⟨⟨⟨unnested_of_isQuote rfl, hu⟩, ⟨hassign rfl, hfit⟩, nofun⟩, hrest⟩
    | operand => cases h
    | target => cases hφ
    | name => cases hφ
    | done => cases hφ
  | .binary op left right, hn, hx, φ, ψ, cs, hφ, hcs, h => by
    have hs := separated_tokens hn hcs
    have hinner := (separated_append.mp hs.2).2
    have hclose := (separated_append.mp hinner.2).2
    simp only [everywhere_binary] at hn hx
    rw [Expr.tokens, scan_head (t := .leftParen) trivial hs,
      Phase.run_token (Phase.step_leftParen hφ), spell_append, List.append_assoc] at h
    obtain ⟨⟨hul, hfl, hal⟩, χ, hχ, h⟩ :=
      follow hn.2.1 hx.2.1 rfl (ends_spell (by trivial) _ _) h
    rw [scan_head (t := .operator op) trivial hinner, Phase.run_token (Phase.step_operator hχ _),
      spell_append, List.append_assoc] at h
    obtain ⟨⟨hur, hfr, har⟩, χ', hχ', h⟩ :=
      follow hn.2.2 hx.2.2 rfl (ends_spell (by trivial) _ _) h
    rw [scan_head (t := .rightParen) trivial hclose, Phase.run_token (Phase.step_rightParen hχ')] at h
    simp only [everywhere_binary, fit_binary]
    exact ⟨⟨⟨unnested_of_isQuote rfl, hul, hur⟩, ⟨⟨hal rfl, har rfl⟩, hfl, hfr⟩, fun _ => rfl⟩,
      .done, rfl, h⟩
  | .call name es, hn, hx, φ, ψ, cs, hφ, hcs, h => by
    have hs := separated_tokens hn hcs
    have hclose := (separated_append.mp hs.2.2).2
    simp only [everywhere_call, named_call] at hn hx
    obtain ⟨χ, hχ, -, hparen⟩ := Phase.step_identifier hφ name
    rw [Expr.tokens, scan_head (t := .identifier name) hn.1 hs, Phase.run_token hχ,
      scan_head (t := .leftParen) trivial hs.2, Phase.run_token hparen, spell_append,
      List.append_assoc] at h
    obtain ⟨⟨hu, hfit⟩, χ', hχ', h⟩ := follow_list separator_comma hn.2 hx.2
      (ends_spell (by trivial) _ _) h
    have hstep : χ'.step .rightParen = some .done := by
      rcases hχ' with hends | ⟨-, rfl⟩
      · exact Phase.step_rightParen hends
      · rfl
    rw [scan_head (t := .rightParen) trivial hclose, Phase.run_token hstep] at h
    simp only [everywhere_call]
    exact ⟨⟨⟨unnested_of_isQuote rfl, hu⟩, ⟨fit_call, hfit⟩, fun _ => rfl⟩, .done, rfl, h⟩
  | .quote p, hn, hx, φ, ψ, cs, hφ, hcs, h => by
    simp only [everywhere_quote] at hn hx
    have htext : spell (Expr.quote p).tokens ++ cs =
        '"' :: (spell (Expr.tokensOf .semicolon p) ++ '"' :: cs) := by
      simp [Expr.tokens, Token.text]
    rw [htext] at h
    by_cases hq : EverywhereIn (fun c => c.isQuote = false) p
    · rw [scan_mark (quotable_tokensOf hn.2 hq)] at h
      obtain ⟨χ, hχ, h⟩ := Phase.run_token_eq_some h
      obtain ⟨q, hread, rfl⟩ := Phase.step_quoted_eq_some hχ
      obtain ⟨ψ', hψ'⟩ := run_of_readProgram hread
      rw [String.toList_ofList, ← List.append_nil (spell _)] at hψ'
      obtain ⟨⟨hu, hfit⟩, -⟩ := follow_list separator_semicolon hn.2 hx.2 ends_nil hψ'
      simp only [everywhere_quote, unnested_quote]
      exact ⟨⟨⟨hq, hu⟩, ⟨fit_quote, hfit⟩, fun _ => rfl⟩, .done, rfl, h⟩
    · obtain ⟨front, rest, heq, hplain, hstuck⟩ :=
        hidden_list separator_semicolon hn.2 hx.2 hq ('"' :: cs)
      rw [heq, scan_mark hplain] at h
      obtain ⟨χ, hχ, h⟩ := Phase.run_token_eq_some h
      obtain ⟨q, -, rfl⟩ := Phase.step_quoted_eq_some hχ
      rw [hstuck] at h
      cases h

theorem follow_list {sep : Token} (hsep : sep.Separator) : ∀ {es : List Expr},
    EverywhereIn Named es → EverywhereIn Numeric es → ∀ {ψ : Phase} {cs : List Char}, Ends cs →
      Phase.statement.run (Item.scan (spell (Expr.tokensOf sep es) ++ cs)) = some ψ →
      (EverywhereIn Unnested es ∧ EverywhereIn Fit es) ∧
        ∃ χ : Phase, (χ.opens = false ∨ es = [] ∧ χ = .statement) ∧
          χ.run (Item.scan cs) = some ψ
  | [], _, _, ψ, cs, _, h => ⟨⟨everywhereIn_nil, everywhereIn_nil⟩, .statement, .inr ⟨rfl, rfl⟩, h⟩
  | [e], hn, hx, ψ, cs, hcs, h => by
    rw [Expr.tokensOf] at h
    rw [everywhereIn_cons] at hn hx
    obtain ⟨⟨hu, hfit, -⟩, χ, hends, h⟩ := follow hn.1 hx.1 rfl hcs h
    simp only [everywhereIn_cons]
    exact ⟨⟨⟨hu, everywhereIn_nil⟩, hfit, everywhereIn_nil⟩, χ, .inl hends, h⟩
  | e :: f :: es, hn, hx, ψ, cs, hcs, h => by
    have hs := separated_tokensOf hsep hn hcs
    rw [Expr.tokensOf] at h hs
    have htail := (separated_append.mp hs).2
    rw [everywhereIn_cons] at hn hx
    rw [spell_append, List.append_assoc] at h
    have hends := ends_spell hsep.isSymbol (Expr.tokensOf sep (f :: es)) cs
    obtain ⟨⟨hu, hfit, -⟩, χ, hχ, h⟩ := follow hn.1 hx.1 rfl hends h
    rw [scan_head hsep.lexical htail, Phase.run_token (Phase.step_separator hχ hsep)] at h
    obtain ⟨⟨hus, hfits⟩, χ', hχ', h⟩ := follow_list hsep hn.2 hx.2 hcs h
    refine ⟨⟨everywhereIn_cons.mpr ⟨hu, hus⟩, everywhereIn_cons.mpr ⟨hfit, hfits⟩⟩, χ',
      hχ'.imp_right ?_, h⟩
    rintro ⟨⟨⟩, -⟩

/-- Where the first mark inside a quote stands, the scanner ends the quote. -/
theorem hidden : ∀ {e : Expr}, Everywhere Named e → Everywhere Numeric e →
    ¬Everywhere (fun c => c.isQuote = false) e → ∀ cs : List Char, Hides (spell e.tokens ++ cs)
  | .num x, _, _, hq, _ => by simp [Expr.isQuote] at hq
  | .var name, _, _, hq, _ => by simp [Expr.isQuote] at hq
  | .assign name value, hn, hx, hq, cs => by
    simp only [everywhere_assign, named_assign] at hn hx hq
    have hvalue := hidden hn.2 hx.2 (fun h => hq ⟨rfl, h⟩) cs
    rw [Expr.tokens, spell_cons, spell_cons, List.append_assoc, List.append_assoc]
    exact (hvalue.behind_token (t := .assign) trivial (by simp)).behind_token
      (t := .identifier name) hn.1 (by simp)
  | .binary op left right, hn, hx, hq, cs => by
    simp only [everywhere_binary] at hn hx hq
    rw [Expr.tokens, spell_cons, spell_append, List.append_assoc, List.append_assoc]
    refine Hides.behind_token (t := .leftParen) ?_ trivial (by simp)
    by_cases hl : Everywhere (fun c => c.isQuote = false) left
    · have hright := hidden hn.2.2 hx.2.2 (fun h => hq ⟨rfl, hl, h⟩) (spell [.rightParen] ++ cs)
      rw [spell_cons, spell_append, List.append_assoc, List.append_assoc]
      exact (hright.behind_token (t := .operator op) trivial (by simp)).behind
        (quotable_tokens hn.2.1 hl)
    · exact hidden hn.2.1 hx.2.1 hl _
  | .call name es, hn, hx, hq, cs => by
    simp only [everywhere_call, named_call] at hn hx hq
    have hes := hidden_list separator_comma hn.2 hx.2 (fun h => hq ⟨rfl, h⟩)
      (spell [.rightParen] ++ cs)
    rw [Expr.tokens, spell_cons, spell_cons, spell_append, List.append_assoc, List.append_assoc,
      List.append_assoc]
    exact (hes.behind_token (t := .leftParen) trivial (by simp)).behind_token
      (t := .identifier name) hn.1 (by simp)
  | .quote p, hn, hx, _, cs => by
    simp only [everywhere_quote] at hn hx
    refine ⟨[], spell (Expr.tokensOf .semicolon p) ++ '"' :: cs, ?_, by simp, ?_⟩
    · simp [Expr.tokens, Token.text]
    · exact stuck_behind_operand hn.2 hx.2 cs

theorem hidden_list {sep : Token} (hsep : sep.Separator) : ∀ {es : List Expr},
    EverywhereIn Named es → EverywhereIn Numeric es →
    ¬EverywhereIn (fun c => c.isQuote = false) es → ∀ cs : List Char,
      Hides (spell (Expr.tokensOf sep es) ++ cs)
  | [], _, _, hq, _ => absurd everywhereIn_nil hq
  | [e], hn, hx, hq, cs => by
    rw [everywhereIn_cons] at hn hx hq
    rw [Expr.tokensOf]
    exact hidden hn.1 hx.1 (fun h => hq ⟨h, everywhereIn_nil⟩) cs
  | e :: f :: es, hn, hx, hq, cs => by
    rw [everywhereIn_cons] at hn hx hq
    rw [Expr.tokensOf, spell_append, List.append_assoc]
    by_cases he : Everywhere (fun c => c.isQuote = false) e
    · rw [spell_cons, List.append_assoc]
      have hrest := hidden_list hsep hn.2 hx.2 (fun h => hq ⟨he, h⟩) cs
      exact (hrest.behind_token hsep.lexical hsep.not_quoted).behind (quotable_tokens hn.1 he)
    · exact hidden hn.1 hx.1 he _

/-- An unquoted program between an operand and a mark cannot be followed. -/
theorem stuck_behind_operand : ∀ {p : Program}, EverywhereIn Named p → EverywhereIn Numeric p →
    ∀ cs : List Char,
      Phase.done.run (Item.scan (spell (Expr.tokensOf .semicolon p) ++ '"' :: cs)) = none
  | [], _, _, cs => stuck_mark rfl cs
  | [e], hn, hx, cs => by
    rw [everywhereIn_cons] at hn hx
    rw [Expr.tokensOf]
    rcases starts_tokens hn.1 hx.1 ('"' :: cs) with ⟨x, rfl, hminus⟩ | ⟨c, rest, htext, hstart⟩
    · obtain ⟨χ, hends, hrun⟩ := minus_behind_operand hminus (ends_mark cs)
      rw [Expr.tokens, hrun]
      exact stuck_mark hends cs
    · rw [htext]
      exact stuck_start hstart rest
  | e :: f :: es, hn, hx, cs => by
    have hs := separated_tokensOf separator_semicolon hn (ends_mark cs)
    rw [Expr.tokensOf] at hs ⊢
    rw [everywhereIn_cons] at hn hx
    rw [spell_append, List.append_assoc]
    have hseparator : Ends (spell (.semicolon :: Expr.tokensOf .semicolon (f :: es)) ++ '"' :: cs) :=
      ends_spell (by trivial) _ _
    rcases starts_tokens hn.1 hx.1 (spell (.semicolon :: Expr.tokensOf .semicolon (f :: es)) ++
      '"' :: cs) with ⟨x, rfl, hminus⟩ | ⟨c, rest, htext, hstart⟩
    · obtain ⟨χ, hends, hrun⟩ := minus_behind_operand hminus hseparator
      rw [Expr.tokens, hrun, scan_head (t := .semicolon) trivial (separated_append.mp hs).2,
        Phase.run_token (Phase.step_separator hends separator_semicolon)]
      cases hrest : Phase.statement.run (Item.scan
          (spell (Expr.tokensOf .semicolon (f :: es)) ++ '"' :: cs)) with
      | none => rfl
      | some ψ =>
        obtain ⟨-, χ', hχ', hmark⟩ := follow_list separator_semicolon hn.2 hx.2 (ends_mark cs) hrest
        rcases hχ' with hends' | ⟨hnil, -⟩
        · rw [stuck_mark hends' cs] at hmark
          cases hmark
        · cases hnil
    · rw [htext]
      exact stuck_start hstart rest

end

end Grammar
end FormulaLang
