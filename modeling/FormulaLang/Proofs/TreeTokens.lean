import FormulaLang.Proofs.Rendered

/-!
# FormulaLang.Proofs.TreeTokens

Trees spelt as tokens, whatever their numbers are spelt as. Where no quote stands inside another,
the text of the tokens scans to the tokens (`scan_speltAll`): each of them is one that the scanner
makes and has no blanks (`solid_spelt`), and none absorbs what follows it (`separated_spelt`), since
names and numbers end at a symbol, and no part of a tree begins with `=`.
-/

namespace FormulaLang

open Token FormulaLang.Expr

mutual

/-- The tokens of a tree whose numbers are spelt by `num`. -/
def Expr.spelt (num : Float → List Token) : Expr → List Token
  | .num x => num x
  | .var name => [.identifier name]
  | .assign name value => .identifier name :: .assign :: value.spelt num
  | .binary op left right =>
    .leftParen :: (left.spelt num ++ .operator op :: (right.spelt num ++ [.rightParen]))
  | .call name es =>
    .identifier name :: .leftParen :: (Expr.speltAll num .comma es ++ [.rightParen])
  | .quote p => [.quoted (.ofList (spell (Expr.speltAll num .semicolon p)))]

def Expr.speltAll (num : Float → List Token) (separator : Token) : List Expr → List Token
  | [] => []
  | [e] => e.spelt num
  | e :: f :: es => e.spelt num ++ separator :: Expr.speltAll num separator (f :: es)

end

/-! ## Where names and numbers end -/

/-- A character that belongs to no name and to no number. -/
def Ends (cs : List Char) : Prop := ∀ c ∈ cs.head?, isNameChar c = false ∧ isNumberChar c = false

theorem ends_nil : Ends [] := by
  intro c hc
  cases hc

/-- Neither a number nor a name. -/
def Token.IsSymbol : Token → Prop
  | .number _ => False
  | .identifier _ => False
  | _ => True

theorem ends_symbol {t : Token} (h : t.IsSymbol) (cs : List Char) :
    Ends (t.text.toList ++ cs) := by
  intro c hc
  cases t with
  | number literal => exact h.elim
  | identifier name => exact h.elim
  | quoted payload =>
    simp [Token.text] at hc
    subst hc
    exact ⟨rfl, rfl⟩
  | operator op => cases op <;> · cases hc; exact ⟨rfl, rfl⟩
  | assign => cases hc; exact ⟨rfl, rfl⟩
  | leftParen => cases hc; exact ⟨rfl, rfl⟩
  | rightParen => cases hc; exact ⟨rfl, rfl⟩
  | comma => cases hc; exact ⟨rfl, rfl⟩
  | semicolon => cases hc; exact ⟨rfl, rfl⟩

theorem ends_spell {t : Token} (h : t.IsSymbol) (ts : List Token) (cs : List Char) :
    Ends (spell (t :: ts) ++ cs) := by
  rw [spell_cons, List.append_assoc]
  exact ends_symbol h _

theorem Token.Separator.isSymbol {t : Token} (h : t.Separator) : t.IsSymbol := by
  rcases h with rfl | rfl <;> trivial

theorem head_name {name : String} (h : isName name = true) (cs : List Char) :
    ∀ c ∈ (name.toList ++ cs).head?, c ≠ '=' := by
  obtain ⟨c, rest, hname, hc, -⟩ := Item.isName_iff.mp h
  rw [hname]
  intro d hd
  cases hd
  exact ne_of_class hc rfl

theorem head_number {literal : String} (h : (Token.number literal).Lexical) (cs : List Char) :
    ∀ c ∈ (literal.toList ++ cs).head?, c ≠ '=' := by
  obtain ⟨hne, hchars⟩ := h
  obtain ⟨c, rest, hliteral⟩ := List.exists_cons_of_ne_nil hne
  have hc := hchars c (by rw [hliteral]; exact List.mem_cons_self)
  rw [hliteral]
  intro d hd
  cases hd
  exact ne_of_class hc rfl

/-! ## Spellings of numbers -/

/-- The tokens of a number can stand in a text: the scanner makes them, they absorb nothing behind
a name or a number, and nothing in front of them absorbs them. -/
structure SpellsNumbers (num : Float → List Token) : Prop where
  lexical : ∀ x, ∀ t ∈ num x, t.Lexical
  not_quoted : ∀ x, ∀ t ∈ num x, ∀ payload, t ≠ .quoted payload
  head : ∀ x cs, ∀ c ∈ (spell (num x) ++ cs).head?, c ≠ '='
  separated : ∀ x cs, Ends cs → Separated (num x) cs

/-- A token of the scanner without blanks. -/
structure Token.Solid (t : Token) : Prop where
  lexical : t.Lexical
  visible : ∀ c ∈ t.text.toList, Text.isBlank c = false

theorem solid_of_lexical {t : Token} (h : t.Lexical) (ht : ∀ payload, t ≠ .quoted payload) :
    t.Solid :=
  ⟨h, fun c hc => (plain_of_lexical h ht c hc).1⟩

section Spelt

variable {num : Float → List Token}

/-- No tree's text begins with `=`, so none is absorbed by the sign or operator in front. -/
theorem head_spelt (hnum : SpellsNumbers num) {e : Expr} (h : Everywhere Named e) (cs : List Char) :
    ∀ c ∈ (spell (e.spelt num) ++ cs).head?, c ≠ '=' := by
  cases e with
  | num x => exact hnum.head x cs
  | var name =>
    simp only [everywhere_var, named_var] at h
    simpa [Expr.spelt, Token.text] using head_name h cs
  | assign name value =>
    simp only [everywhere_assign, named_assign] at h
    rw [Expr.spelt, spell_cons, List.append_assoc]
    exact head_name h.1 _
  | binary op left right =>
    intro c hc
    cases hc
    decide
  | call name es =>
    simp only [everywhere_call, named_call] at h
    rw [Expr.spelt, spell_cons, List.append_assoc]
    exact head_name h.1 _
  | quote p =>
    intro c hc
    simp [Expr.spelt, Token.text] at hc
    subst hc
    decide

mutual

theorem not_quoted_spelt (hnum : SpellsNumbers num) :
    ∀ {e : Expr}, Everywhere (fun c => c.isQuote = false) e →
      ∀ t ∈ e.spelt num, ∀ payload, t ≠ .quoted payload
  | .num x, _ => hnum.not_quoted x
  | .var name, _ => by simp [Expr.spelt]
  | .assign name value, h => by
    simp only [everywhere_assign] at h
    have hvalue := not_quoted_spelt hnum h.2
    simpa [Expr.spelt] using hvalue
  | .binary op left right, h => by
    simp only [everywhere_binary] at h
    have hleft := not_quoted_spelt hnum h.2.1
    have hright := not_quoted_spelt hnum h.2.2
    simp only [Expr.spelt, List.forall_mem_cons, List.forall_mem_append]
    refine ⟨by simp, hleft, by simp, hright, by simp, by simp⟩
  | .call name es, h => by
    simp only [everywhere_call] at h
    have hes := not_quoted_speltAll hnum separator_comma h.2
    simp only [Expr.spelt, List.forall_mem_cons, List.forall_mem_append]
    refine ⟨by simp, by simp, hes, by simp, by simp⟩
  | .quote p, h => by
    simp [Expr.isQuote] at h

theorem not_quoted_speltAll (hnum : SpellsNumbers num) {sep : Token} (hsep : sep.Separator) :
    ∀ {es : List Expr}, EverywhereIn (fun c => c.isQuote = false) es →
      ∀ t ∈ Expr.speltAll num sep es, ∀ payload, t ≠ .quoted payload
  | [], _ => by simp [Expr.speltAll]
  | [e], h => by
    rw [Expr.speltAll]
    exact not_quoted_spelt hnum (everywhereIn_cons.mp h).1
  | e :: f :: es, h => by
    have hrest := not_quoted_speltAll hnum hsep (everywhereIn_cons.mp h).2
    have hhead := not_quoted_spelt hnum (everywhereIn_cons.mp h).1
    simp only [Expr.speltAll, List.forall_mem_cons, List.forall_mem_append]
    exact ⟨hhead, hsep.not_quoted, hrest⟩

end

mutual

theorem solid_spelt (hnum : SpellsNumbers num) :
    ∀ {e : Expr}, Everywhere Named e → Everywhere Unnested e → ∀ t ∈ e.spelt num, t.Solid
  | .num x, _, _ => fun t ht => solid_of_lexical (hnum.lexical x t ht) (hnum.not_quoted x t ht)
  | .var name, hn, _ => by
    simp only [everywhere_var, named_var] at hn
    simp only [Expr.spelt, List.forall_mem_singleton]
    exact solid_of_lexical hn nofun
  | .assign name value, hn, hu => by
    simp only [everywhere_assign, named_assign] at hn hu
    simp only [Expr.spelt, List.forall_mem_cons]
    exact ⟨solid_of_lexical hn.1 nofun, solid_of_lexical trivial nofun, solid_spelt hnum hn.2 hu.2⟩
  | .binary op left right, hn, hu => by
    simp only [everywhere_binary] at hn hu
    simp only [Expr.spelt, List.forall_mem_cons, List.forall_mem_append]
    have hleft := solid_spelt hnum hn.2.1 hu.2.1
    have hright := solid_spelt hnum hn.2.2 hu.2.2
    exact ⟨solid_of_lexical trivial nofun, hleft, solid_of_lexical trivial nofun, hright,
      solid_of_lexical trivial nofun, List.forall_mem_nil _⟩
  | .call name es, hn, hu => by
    simp only [everywhere_call, named_call] at hn hu
    simp only [Expr.spelt, List.forall_mem_cons, List.forall_mem_append]
    exact ⟨solid_of_lexical hn.1 nofun, solid_of_lexical trivial nofun,
      solid_speltAll hnum separator_comma hn.2 hu.2, solid_of_lexical trivial nofun,
      List.forall_mem_nil _⟩
  | .quote p, hn, hu => by
    simp only [everywhere_quote, unnested_quote] at hn hu
    have hsolid := solid_speltAll hnum separator_semicolon hn.2 hu.2
    have hfree := not_quoted_speltAll hnum separator_semicolon hu.1
    have hplain := plain_spell (fun t ht => (hsolid t ht).lexical) hfree
    simp only [Expr.spelt, List.forall_mem_singleton]
    refine ⟨?_, ?_⟩
    · rw [Token.Lexical, String.toList_ofList]
      exact fun c hc => (hplain c hc).2
    · intro c hc
      simp only [Token.text, String.toList_append, String.toList_ofList, List.mem_append] at hc
      rcases hc with (hc | hc) | hc
      · cases List.mem_singleton.mp hc
        rfl
      · exact (hplain c hc).1
      · cases List.mem_singleton.mp hc
        rfl

theorem solid_speltAll (hnum : SpellsNumbers num) {sep : Token} (hsep : sep.Separator) :
    ∀ {es : List Expr}, EverywhereIn Named es → EverywhereIn Unnested es →
      ∀ t ∈ Expr.speltAll num sep es, t.Solid
  | [], _, _ => by simp [Expr.speltAll]
  | [e], hn, hu => by
    rw [Expr.speltAll]
    exact solid_spelt hnum (everywhereIn_cons.mp hn).1 (everywhereIn_cons.mp hu).1
  | e :: f :: es, hn, hu => by
    have hrest := solid_speltAll hnum hsep (everywhereIn_cons.mp hn).2 (everywhereIn_cons.mp hu).2
    have hhead := solid_spelt hnum (everywhereIn_cons.mp hn).1 (everywhereIn_cons.mp hu).1
    simp only [Expr.speltAll, List.forall_mem_cons, List.forall_mem_append]
    exact ⟨hhead, solid_of_lexical hsep.lexical hsep.not_quoted, hrest⟩

end

mutual

theorem separated_spelt (hnum : SpellsNumbers num) :
    ∀ {e : Expr}, Everywhere Named e → ∀ {cs : List Char}, Ends cs → Separated (e.spelt num) cs
  | .num x, _, cs, hcs => hnum.separated x cs hcs
  | .var name, _, _, hcs => ⟨fun c hc => (hcs c hc).1, trivial⟩
  | .assign name value, h, cs, hcs => by
    simp only [everywhere_assign] at h
    refine ⟨?_, ?_, separated_spelt hnum h.2 hcs⟩
    · intro c hc
      cases hc
      show isNameChar '=' = false
      rfl
    · intro c hc
      exact decide_eq_false (head_spelt hnum h.2 cs c hc)
  | .binary op left right, h, cs, hcs => by
    simp only [everywhere_binary] at h
    rw [Expr.spelt]
    refine ⟨fun c _ => rfl, ?_⟩
    rw [separated_append, Separated, separated_append]
    have hop := ends_spell (t := .operator op) trivial (right.spelt num ++ [.rightParen]) cs
    have hclose := ends_spell (t := .rightParen) trivial [] cs
    refine ⟨separated_spelt hnum h.2.1 hop, ?_, separated_spelt hnum h.2.2 hclose, ?_, trivial⟩
    · intro c hc
      rw [spell_append, List.append_assoc] at hc
      have hne := head_spelt hnum h.2.2 _ c hc
      cases op <;> simp [Token.absorbs, hne]
    · exact fun c _ => rfl
  | .call name es, h, cs, hcs => by
    simp only [everywhere_call] at h
    rw [Expr.spelt]
    refine ⟨?_, fun c _ => rfl, ?_⟩
    · intro c hc
      cases hc
      show isNameChar '(' = false
      rfl
    · have hclose := ends_spell (t := .rightParen) trivial [] cs
      rw [separated_append]
      exact ⟨separated_speltAll hnum separator_comma h.2 hclose, fun c _ => rfl, trivial⟩
  | .quote p, _, _, _ => ⟨fun c _ => rfl, trivial⟩

theorem separated_speltAll (hnum : SpellsNumbers num) {sep : Token} (hsep : sep.Separator) :
    ∀ {es : List Expr}, EverywhereIn Named es → ∀ {cs : List Char}, Ends cs →
      Separated (Expr.speltAll num sep es) cs
  | [], _, _, _ => trivial
  | [e], h, _, hcs => by
    rw [Expr.speltAll]
    exact separated_spelt hnum (everywhereIn_cons.mp h).1 hcs
  | e :: f :: es, h, cs, hcs => by
    have hrest := separated_speltAll hnum hsep (everywhereIn_cons.mp h).2 hcs
    have hends := ends_spell hsep.isSymbol (Expr.speltAll num sep (f :: es)) cs
    rw [Expr.speltAll, separated_append, Separated]
    have hhead := separated_spelt hnum (everywhereIn_cons.mp h).1 hends
    exact ⟨hhead, fun c _ => hsep.not_absorbs c, hrest⟩

end

theorem scan_speltAll (hnum : SpellsNumbers num) {sep : Token} (hsep : sep.Separator)
    {es : List Expr} (hn : EverywhereIn Named es) (hu : EverywhereIn Unnested es)
    {cs : List Char} (hcs : Ends cs) :
    Item.scan (spell (Expr.speltAll num sep es) ++ cs) =
      (Expr.speltAll num sep es).map .token ++ Item.scan cs :=
  Item.scan_spell (fun t ht => (solid_speltAll hnum hsep hn hu t ht).lexical)
    (separated_speltAll hnum hsep hn hcs)

end Spelt

end FormulaLang
