import FormulaLang.Proofs.TreeTokens

/-!
# FormulaLang.Proofs.Rescan

The tokens of doubles can stand in a text (`spellsNumbers_floatTokens`), and with them those of a
tree: each is one that the scanner makes (`lexical_tokens`), and none absorbs what follows it
(`separated_tokens`).
-/

namespace FormulaLang

open Token FormulaLang.Expr

/-! ## Doubles -/

theorem head_floatText (x : Float) (cs : List Char) :
    ∀ c ∈ ((Decimal.floatText x).toList ++ cs).head?, c ≠ '=' := by
  have hlexical := lexical_floatTokens x
  rw [← spell_floatTokens]
  rw [floatTokens] at hlexical ⊢
  split
  · exact @head_name "NaN" rfl cs
  rename_i hnan
  rw [if_neg hnan] at hlexical
  split
  · intro c hc
    cases hc
    decide
  · rename_i hsign
    rw [if_neg hsign, magnitudeToken] at hlexical
    rw [magnitudeToken, spell_cons, spell_nil, List.append_nil]
    split
    · exact @head_name "inf" rfl cs
    · rename_i hinf
      rw [if_neg hinf] at hlexical
      exact head_number (hlexical _ List.mem_cons_self) cs

theorem separated_floatTokens (x : Float) {cs : List Char} (h : Ends cs) :
    Separated (floatTokens x) cs := by
  have hmagnitude : ∀ w, ∀ c ∈ cs.head?, (magnitudeToken w).absorbs c = false := by
    intro w c hc
    rw [magnitudeToken]
    split
    · exact (h c hc).1
    · exact (h c hc).2
  rw [floatTokens]
  split
  · exact ⟨fun c hc => (h c hc).1, trivial⟩
  split
  · exact ⟨fun c _ => rfl, hmagnitude _, trivial⟩
  · exact ⟨hmagnitude _, trivial⟩

theorem spellsNumbers_floatTokens : SpellsNumbers floatTokens where
  lexical := lexical_floatTokens
  not_quoted _ _ := not_quoted_of_mem_floatTokens
  head x cs := by
    rw [spell_floatTokens]
    exact head_floatText x cs
  separated x _ := separated_floatTokens x

/-! ## Trees -/

mutual

theorem spelt_floatTokens : ∀ e : Expr, e.spelt floatTokens = e.tokens
  | .num x => rfl
  | .var name => rfl
  | .assign name value => by
    rw [Expr.spelt, Expr.tokens, spelt_floatTokens value]
  | .binary op left right => by
    rw [Expr.spelt, Expr.tokens, spelt_floatTokens left, spelt_floatTokens right]
  | .call name es => by
    rw [Expr.spelt, Expr.tokens, speltAll_floatTokens .comma es]
  | .quote p => by
    rw [Expr.spelt, Expr.tokens, speltAll_floatTokens .semicolon p]

theorem speltAll_floatTokens (sep : Token) :
    ∀ es : List Expr, Expr.speltAll floatTokens sep es = Expr.tokensOf sep es
  | [] => rfl
  | [e] => spelt_floatTokens e
  | e :: f :: es => by
    rw [Expr.speltAll, Expr.tokensOf, spelt_floatTokens e, speltAll_floatTokens sep (f :: es)]

end

theorem not_quoted_of_isQuote {e : Expr} (h : Everywhere (fun c => c.isQuote = false) e) :
    ∀ t ∈ e.tokens, ∀ payload, t ≠ .quoted payload := by
  rw [← spelt_floatTokens]
  exact not_quoted_spelt spellsNumbers_floatTokens h

theorem not_quotedOf_of_isQuote {sep : Token} (hsep : sep.Separator) {es : List Expr}
    (h : EverywhereIn (fun c => c.isQuote = false) es) :
    ∀ t ∈ Expr.tokensOf sep es, ∀ payload, t ≠ .quoted payload := by
  rw [← speltAll_floatTokens]
  exact not_quoted_speltAll spellsNumbers_floatTokens hsep h

theorem lexical_tokens {e : Expr} (hn : Everywhere Named e) (hu : Everywhere Unnested e) :
    ∀ t ∈ e.tokens, t.Lexical := by
  rw [← spelt_floatTokens]
  exact fun t ht => (solid_spelt spellsNumbers_floatTokens hn hu t ht).lexical

theorem lexical_tokensOf {sep : Token} (hsep : sep.Separator) {es : List Expr}
    (hn : EverywhereIn Named es) (hu : EverywhereIn Unnested es) :
    ∀ t ∈ Expr.tokensOf sep es, t.Lexical := by
  rw [← speltAll_floatTokens]
  exact fun t ht => (solid_speltAll spellsNumbers_floatTokens hsep hn hu t ht).lexical

theorem separated_tokens {e : Expr} (h : Everywhere Named e) {cs : List Char} (hcs : Ends cs) :
    Separated e.tokens cs := by
  rw [← spelt_floatTokens]
  exact separated_spelt spellsNumbers_floatTokens h hcs

theorem separated_tokensOf {sep : Token} (hsep : sep.Separator) {es : List Expr}
    (h : EverywhereIn Named es) {cs : List Char} (hcs : Ends cs) :
    Separated (Expr.tokensOf sep es) cs := by
  rw [← speltAll_floatTokens]
  exact separated_speltAll spellsNumbers_floatTokens hsep h hcs

end FormulaLang
