import FormulaLang.Program.Render
import FormulaLang.Proofs.Nodes
import FormulaLang.Proofs.ShortestText
import FormulaLang.Proofs.Spelling
import FormulaLang.Text.Blank

/-!
# FormulaLang.Proofs.Rendered

The tokens that a tree is rendered as.

* `Expr.tokens`: they are given for every tree, whatever is read back from them. A quote is one
  token, whose payload may hold quotes that the scanner pairs differently.
* `strip_render`: the rendered text without its blanks is the text of the tokens.
-/

namespace FormulaLang

open Token

/-! ## The tokens of a double -/

def magnitudeToken (w : Nat) : Token :=
  if w = Binary64.infinityWord then .identifier "inf" else .number (Decimal.magnitudeText w)

def floatTokens (x : Float) : List Token :=
  if x.isNaN then [.identifier "NaN"]
  else if Binary64.isNegative x then [.operator .sub, magnitudeToken (Binary64.magnitude x)]
  else [magnitudeToken (Binary64.magnitude x)]

/-! ## The tokens of a tree -/

mutual

def Expr.tokens : Expr → List Token
  | .num x => floatTokens x
  | .var name => [.identifier name]
  | .assign name value => .identifier name :: .assign :: value.tokens
  | .binary op left right =>
    .leftParen :: (left.tokens ++ .operator op :: (right.tokens ++ [.rightParen]))
  | .call name es => .identifier name :: .leftParen :: (Expr.tokensOf .comma es ++ [.rightParen])
  | .quote p => [.quoted (.ofList (spell (Expr.tokensOf .semicolon p)))]

def Expr.tokensOf (separator : Token) : List Expr → List Token
  | [] => []
  | [e] => e.tokens
  | e :: f :: es => e.tokens ++ separator :: Expr.tokensOf separator (f :: es)

end

namespace Expr

/-- The names that the node spells are names to the scanner. -/
def Named (n : Expr) : Prop := ∀ name ∈ n.names, isName name = true

/-- The node is no quote, or a quote without quotes inside. -/
def Unnested (n : Expr) : Prop := ∀ p, n = .quote p → EverywhereIn (fun c => c.isQuote = false) p

@[simp] theorem named_num {x : Float} : Named (.num x) := by simp [Named, names]

@[simp] theorem named_var {name : String} : Named (.var name) ↔ isName name = true := by
  simp [Named, names]

@[simp] theorem named_assign {name : String} {value : Expr} :
    Named (.assign name value) ↔ isName name = true := by
  simp [Named, names]

@[simp] theorem named_binary {op : Operator} {left right : Expr} : Named (.binary op left right) := by
  simp [Named, names]

@[simp] theorem named_call {name : String} {es : List Expr} :
    Named (.call name es) ↔ isName name = true := by
  simp [Named, names]

@[simp] theorem named_quote {p : Program} : Named (.quote p) := by simp [Named, names]

@[simp] theorem unnested_quote {p : Program} :
    Unnested (.quote p) ↔ EverywhereIn (fun c => c.isQuote = false) p := by
  simp [Unnested]

theorem unnested_of_isQuote {n : Expr} (h : n.isQuote = false) : Unnested n := by
  rintro p rfl
  cases h

end Expr

open FormulaLang.Expr

/-! ## Characters -/

/-- The characters from `!` to `~` are not blank. -/
theorem isBlank_of_le {c : Char} {lo hi : Nat} (hlo : 0x20 < lo) (hge : lo ≤ c.toNat)
    (hle : c.toNat ≤ hi) (hhi : hi < 0x7f) : Text.isBlank c = false := by
  simp only [Text.isBlank, Text.blankRanges, List.any_cons, List.any_nil, Bool.or_false,
    Bool.or_eq_false_iff, Bool.and_eq_false_iff, decide_eq_false_iff_not]
  omega

theorem isBlank_of_isDigit {c : Char} (h : c.isDigit = true) : Text.isBlank c = false := by
  simp only [Char.isDigit, Bool.and_eq_true, decide_eq_true_eq, ge_iff_le,
    UInt32.le_iff_toNat_le] at h
  exact isBlank_of_le (by decide) h.1 h.2 (by decide)

theorem isBlank_of_isAlpha {c : Char} (h : c.isAlpha = true) : Text.isBlank c = false := by
  simp only [Char.isAlpha, Char.isUpper, Char.isLower, Bool.or_eq_true, Bool.and_eq_true,
    decide_eq_true_eq, ge_iff_le, UInt32.le_iff_toNat_le] at h
  rcases h with ⟨hge, hle⟩ | ⟨hge, hle⟩
  · exact isBlank_of_le (by decide) hge hle (by decide)
  · exact isBlank_of_le (by decide) hge hle (by decide)

theorem isBlank_of_isNumberChar {c : Char} (h : isNumberChar c = true) :
    Text.isBlank c = false := by
  simp only [isNumberChar, Bool.or_eq_true, decide_eq_true_eq] at h
  rcases h with h | rfl
  · exact isBlank_of_isDigit h
  · rfl

theorem isBlank_of_isNameChar {c : Char} (h : isNameChar c = true) : Text.isBlank c = false := by
  simp only [isNameChar, Char.isAlphanum, Bool.or_eq_true, decide_eq_true_eq] at h
  rcases h with (h | h) | rfl
  · exact isBlank_of_isAlpha h
  · exact isBlank_of_isDigit h
  · rfl

theorem isNameChar_of_isName {name : String} (h : isName name = true) :
    ∀ c ∈ name.toList, isNameChar c = true := by
  obtain ⟨c, cs, hname, hc, hcs⟩ := Item.isName_iff.mp h
  rw [hname]
  intro d hd
  rcases List.mem_cons.mp hd with rfl | hd
  · simp only [isNameStart, isNameChar, Char.isAlphanum, Bool.or_eq_true] at hc ⊢
    exact hc.imp_left Or.inl
  · exact hcs d hd

/-- Outside of quoted tokens there is neither a blank nor a quote. -/
theorem plain_of_lexical {t : Token} (h : t.Lexical) (ht : ∀ payload, t ≠ .quoted payload) :
    ∀ c ∈ t.text.toList, Text.isBlank c = false ∧ isQuotable c = true := by
  intro c hc
  cases t with
  | number literal =>
    have hn := h.2 c hc
    exact ⟨isBlank_of_isNumberChar hn, isQuotable_iff.mpr (ne_of_class hn rfl)⟩
  | identifier name =>
    have hn := isNameChar_of_isName h c hc
    exact ⟨isBlank_of_isNameChar hn, isQuotable_iff.mpr (ne_of_class hn rfl)⟩
  | quoted payload => exact absurd rfl (ht payload)
  | operator op =>
    have hplain : (op.symbol.toList.all fun c => !Text.isBlank c && isQuotable c) = true := by
      cases op <;> rfl
    simpa using List.all_eq_true.mp hplain c hc
  | assign => cases List.mem_singleton.mp hc; exact ⟨rfl, rfl⟩
  | leftParen => cases List.mem_singleton.mp hc; exact ⟨rfl, rfl⟩
  | rightParen => cases List.mem_singleton.mp hc; exact ⟨rfl, rfl⟩
  | comma => cases List.mem_singleton.mp hc; exact ⟨rfl, rfl⟩
  | semicolon => cases List.mem_singleton.mp hc; exact ⟨rfl, rfl⟩

theorem plain_spell {ts : List Token} (h : ∀ t ∈ ts, t.Lexical)
    (hq : ∀ t ∈ ts, ∀ payload, t ≠ .quoted payload) :
    ∀ c ∈ spell ts, Text.isBlank c = false ∧ isQuotable c = true := by
  intro c hc
  obtain ⟨t, ht, hc⟩ := List.mem_flatMap.mp hc
  exact plain_of_lexical (h t ht) (hq t ht) c hc

/-! ## Doubles -/

theorem lexical_magnitudeToken {w : Nat} (h : w ≤ Binary64.infinityWord) :
    (magnitudeToken w).Lexical := by
  rw [magnitudeToken]
  split
  · show isName "inf" = true
    rfl
  · rename_i hne
    obtain ⟨hnumeral, -⟩ := Decimal.numeral_magnitudeText (Nat.lt_of_le_of_ne h hne)
    refine ⟨?_, hnumeral.chars⟩
    obtain ⟨c, hc, -⟩ := hnumeral.digit
    exact List.ne_nil_of_mem hc

theorem text_magnitudeToken (w : Nat) : (magnitudeToken w).text = Decimal.magnitudeText w := by
  rw [magnitudeToken]
  split
  · rename_i h
    subst h
    rfl
  · rfl

theorem lexical_floatTokens (x : Float) : ∀ t ∈ floatTokens x, t.Lexical := by
  rw [floatTokens]
  split
  · intro t ht
    cases List.mem_singleton.mp ht
    show isName "NaN" = true
    rfl
  · rename_i hnan
    have hlexical := lexical_magnitudeToken (Binary64.magnitude_le_of_isNaN hnan)
    split
    · intro t ht
      rcases List.mem_cons.mp ht with rfl | ht
      · trivial
      · cases List.mem_singleton.mp ht
        exact hlexical
    · intro t ht
      cases List.mem_singleton.mp ht
      exact hlexical

theorem spell_floatTokens (x : Float) : spell (floatTokens x) = (Decimal.floatText x).toList := by
  rw [floatTokens, Decimal.floatText]
  split
  · rfl
  split
  · rw [spell_cons, spell_cons, spell_nil, List.append_nil, text_magnitudeToken,
      String.toList_append]
    rfl
  · rw [spell_cons, spell_nil, List.append_nil, text_magnitudeToken]

theorem not_quoted_of_mem_floatTokens {x : Float} {t : Token} (h : t ∈ floatTokens x)
    (payload : String) : t ≠ .quoted payload := by
  rintro rfl
  simp only [floatTokens, magnitudeToken] at h
  repeat' split at h
  all_goals simp at h

theorem isBlank_of_mem_floatText (x : Float) :
    ∀ c ∈ (Decimal.floatText x).toList, Text.isBlank c = false := by
  rw [← spell_floatTokens]
  intro c hc
  exact (plain_spell (lexical_floatTokens x) (fun _ => not_quoted_of_mem_floatTokens) c hc).1

/-! ## Rendering without blanks -/

/-- The characters that are left of a text when its blanks are dropped. -/
def visible (s : String) : List Char := s.toList.filter fun c => !Text.isBlank c

theorem visible_append (s t : String) : visible (s ++ t) = visible s ++ visible t := by
  simp [visible]

theorem visible_eq_self {s : String} (h : ∀ c ∈ s.toList, Text.isBlank c = false) :
    visible s = s.toList := by
  rw [visible, List.filter_eq_self]
  intro c hc
  simp [h c hc]

theorem visible_name {name : String} (h : isName name = true) : visible name = name.toList :=
  visible_eq_self fun c hc => isBlank_of_isNameChar (isNameChar_of_isName h c hc)

theorem visible_symbol (op : Operator) : visible op.symbol = op.symbol.toList := by
  cases op <;> rfl

theorem visible_floatText (x : Float) :
    visible (Decimal.floatText x) = (Decimal.floatText x).toList :=
  visible_eq_self (isBlank_of_mem_floatText x)

mutual

theorem visible_render : ∀ {e : Expr}, Everywhere Named e → visible e.render = spell e.tokens
  | .num x, _ => by
    rw [Expr.render, Expr.tokens, spell_floatTokens, visible_floatText]
  | .var name, h => by
    simp only [everywhere_var, named_var] at h
    rw [Expr.render, Expr.tokens, visible_name h]
    simp [Token.text]
  | .assign name value, h => by
    simp only [everywhere_assign, named_assign] at h
    have hsign : visible " = " = ['='] := rfl
    rw [Expr.render, Expr.tokens, visible_append, visible_append, visible_name h.1, hsign,
      visible_render h.2]
    simp [Token.text]
  | .binary op left right, h => by
    simp only [everywhere_binary, named_binary, true_and] at h
    have hopen : visible "(" = ['('] := rfl
    have hblank : visible " " = [] := rfl
    have hclose : visible ")" = [')'] := rfl
    rw [Expr.render, Expr.tokens]
    simp only [visible_append, hopen, hblank, hclose, visible_symbol, visible_render h.1,
      visible_render h.2]
    simp [Token.text]
  | .call name es, h => by
    simp only [everywhere_call, named_call] at h
    have hopen : visible "(" = ['('] := rfl
    have hclose : visible ")" = [')'] := rfl
    have hcomma : visible ", " = Token.comma.text.toList := rfl
    rw [Expr.render, Expr.tokens]
    simp only [visible_append, visible_name h.1, hopen, hclose, visible_renderList hcomma h.2]
    simp [Token.text]
  | .quote p, h => by
    simp only [everywhere_quote, named_quote, true_and] at h
    have hquote : visible "\"" = ['"'] := rfl
    have hsemicolon : visible "; " = Token.semicolon.text.toList := rfl
    rw [Expr.render, Expr.tokens]
    simp only [visible_append, hquote, visible_renderList hsemicolon h]
    simp [Token.text]

theorem visible_renderList {separator : String} {sep : Token}
    (hsep : visible separator = sep.text.toList) :
    ∀ {es : List Expr}, EverywhereIn Named es →
      visible (Expr.renderList separator es) = spell (Expr.tokensOf sep es)
  | [], _ => rfl
  | [e], h => by
    simp only [everywhereIn_cons] at h
    rw [Expr.renderList, Expr.tokensOf, visible_render h.1]
  | e :: f :: es, h => by
    have hrest := visible_renderList hsep (everywhereIn_cons.mp h).2
    rw [Expr.renderList, Expr.tokensOf, visible_append, visible_append, hsep, hrest,
      visible_render (everywhereIn_cons.mp h).1]
    simp

end

theorem strip_render {p : Program} (h : EverywhereIn Named p) :
    (Text.strip p.render).toList = spell (Expr.tokensOf .semicolon p) := by
  have hsemicolon : visible "; " = Token.semicolon.text.toList := rfl
  rw [Text.strip, String.toList_ofList]
  exact visible_renderList hsemicolon h

end FormulaLang
