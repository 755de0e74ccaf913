import Mathlib
import FormulaLang.Token.Scan

/-!
# FormulaLang.Proofs.Spelling

Tokens written down and scanned again.

* `Token.Lexical`: what the scanner can make a token of; `lexical_of_mem_scan` says that it makes
  no other tokens.
* `Token.absorbs t c`: the character `c` right behind the text of `t` would belong to `t`.
* `scan_spell`: lexical tokens, none of which absorbs what follows it, scan to themselves.
* `scan_eq_tokens`: a text whose items begin with tokens begins with their texts, and none of them
  absorbs what follows it.
-/

namespace FormulaLang

/-- A name as the scanner knows it: a letter or `_`, and then letters, digits and `_`. -/
def isName (name : String) : Bool :=
  match name.toList with
  | [] => false
  | c :: cs => isNameStart c && cs.all isNameChar

theorem isQuotable_iff {c : Char} : isQuotable c = true ↔ c ≠ '"' := by
  simp [isQuotable]

/-- Characters of different classes are different. -/
theorem ne_of_class {p : Char → Bool} {c d : Char} (hc : p c = true) (hd : p d = false) :
    c ≠ d := by
  rintro rfl
  rw [hc] at hd
  cases hd

namespace Token

def Lexical : Token → Prop
  | .number literal => literal.toList ≠ [] ∧ ∀ c ∈ literal.toList, isNumberChar c = true
  | .identifier name => isName name = true
  | .quoted payload => ∀ c ∈ payload.toList, isQuotable c = true
  | _ => True

def absorbs : Token → Char → Bool
  | .number _, c => isNumberChar c
  | .identifier _, c => isNameChar c
  | .operator .lt, c => c = '='
  | .operator .gt, c => c = '='
  | .assign, c => c = '='
  | _, _ => false

/-- The text of a list of tokens, without blanks. -/
def spell (tokens : List Token) : List Char := tokens.flatMap fun t => t.text.toList

/-- No token absorbs the first character behind it, where `cs` follows the last one. -/
def Separated : List Token → List Char → Prop
  | [], _ => True
  | t :: ts, cs => (∀ c ∈ (spell ts ++ cs).head?, t.absorbs c = false) ∧ Separated ts cs

@[simp] theorem spell_nil : spell [] = [] := rfl

@[simp] theorem spell_cons (t : Token) (ts : List Token) :
    spell (t :: ts) = t.text.toList ++ spell ts := rfl

@[simp] theorem spell_append (ts us : List Token) : spell (ts ++ us) = spell ts ++ spell us :=
  List.flatMap_append

theorem separated_append {ts us : List Token} {cs : List Char} :
    Separated (ts ++ us) cs ↔ Separated ts (spell us ++ cs) ∧ Separated us cs := by
  induction ts with
  | nil => simp [Separated]
  | cons t ts ih => simp [Separated, ih, and_assoc]

/-- No token absorbs the first character. -/
def Free (cs : List Char) : Prop := ∀ c ∈ cs.head?, ∀ t : Token, t.absorbs c = false

theorem free_nil : Free [] := by
  intro c hc
  cases hc

theorem free_cons {c : Char} (hnumber : isNumberChar c = false) (hname : isNameChar c = false)
    (hassign : c ≠ '=') (cs : List Char) : Free (c :: cs) := by
  rintro d ⟨⟩ t
  have hc : decide (c = '=') = false := decide_eq_false hassign
  cases t with
  | number literal => exact hnumber
  | identifier name => exact hname
  | operator op =>
    cases op with
    | lt => exact hc
    | gt => exact hc
    | _ => rfl
  | assign => exact hc
  | _ => rfl

theorem Separated.free {ts : List Token} {cs cs' : List Char} (h : Separated ts cs)
    (hcs : Free cs') : Separated ts cs' := by
  induction ts with
  | nil => trivial
  | cons t ts ih =>
    refine ⟨?_, ih h.2⟩
    have hstop := h.1
    cases hspell : spell ts with
    | nil => exact fun c hc => hcs c hc t
    | cons d ds =>
      rw [hspell] at hstop
      exact hstop

/-- What stands between arguments, or between statements. -/
def Separator (t : Token) : Prop := t = .comma ∨ t = .semicolon

theorem separator_comma : Token.comma.Separator := .inl rfl

theorem separator_semicolon : Token.semicolon.Separator := .inr rfl

theorem Separator.lexical {t : Token} (h : t.Separator) : t.Lexical := by
  rcases h with rfl | rfl <;> trivial

theorem Separator.not_quoted {t : Token} (h : t.Separator) (payload : String) :
    t ≠ .quoted payload := by
  rcases h with rfl | rfl <;> simp

theorem Separator.not_absorbs {t : Token} (h : t.Separator) (c : Char) :
    t.absorbs c = false := by
  rcases h with rfl | rfl <;> rfl

end Token

namespace Item

open Token

/-! ## Where a run of characters ends -/

section Runs

variable {p : Char → Bool} {word cs : List Char}

theorem takeWhile_run (hword : ∀ c ∈ word, p c = true) (hcs : ∀ c ∈ cs.head?, p c = false) :
    (word ++ cs).takeWhile p = word := by
  rw [List.takeWhile_append_of_pos hword]
  cases cs with
  | nil => simp
  | cons c cs => simp [hcs c (by simp)]

theorem dropWhile_run (hword : ∀ c ∈ word, p c = true) (hcs : ∀ c ∈ cs.head?, p c = false) :
    (word ++ cs).dropWhile p = cs := by
  rw [List.dropWhile_append_of_pos hword]
  cases cs with
  | nil => simp
  | cons c cs => simp [hcs c (by simp)]

end Runs

/-! ## One token -/

theorem scan_number {literal : String} {cs : List Char} (h : (Token.number literal).Lexical)
    (hcs : ∀ c ∈ cs.head?, (Token.number literal).absorbs c = false) :
    scan (literal.toList ++ cs) = .token (.number literal) :: scan cs := by
  obtain ⟨hne, hchars⟩ := h
  obtain ⟨c, rest, hliteral⟩ := List.exists_cons_of_ne_nil hne
  rw [hliteral] at hchars ⊢
  have hc : isNumberChar c = true := hchars c List.mem_cons_self
  have hrest : ∀ d ∈ rest, isNumberChar d = true := fun d hd => hchars d (List.mem_cons_of_mem c hd)
  have hstop : ∀ d ∈ cs.head?, isNumberChar d = false := hcs
  rw [List.cons_append, scan_cons, scanFirst, if_pos hc, takeWhile_run hrest hstop,
    dropWhile_run hrest hstop, ← hliteral, String.ofList_toList]

theorem isName_iff {name : String} : isName name = true ↔
    ∃ c cs, name.toList = c :: cs ∧ isNameStart c = true ∧ ∀ d ∈ cs, isNameChar d = true := by
  rw [isName]
  cases name.toList with
  | nil => simp
  | cons c cs =>
    rw [Bool.and_eq_true, List.all_eq_true]
    constructor
    · rintro ⟨hc, hcs⟩
      exact ⟨c, cs, rfl, hc, hcs⟩
    · rintro ⟨_, _, ⟨⟩, hc, hcs⟩
      exact ⟨hc, hcs⟩

theorem isNumberChar_of_isNameStart {c : Char} (h : isNameStart c = true) :
    isNumberChar c = false := by
  rw [Bool.eq_false_iff]
  intro hnumber
  simp only [isNameStart, isNumberChar, Char.isAlpha, Char.isUpper, Char.isLower, Char.isDigit,
    Bool.or_eq_true, Bool.and_eq_true, decide_eq_true_eq, ge_iff_le, UInt32.le_iff_toNat_le]
    at h hnumber
  rcases hnumber with ⟨_, hle⟩ | rfl
  · rcases h with (⟨hge, _⟩ | ⟨hge, _⟩) | rfl
    · exact absurd (Nat.le_trans hge hle) (by decide)
    · exact absurd (Nat.le_trans hge hle) (by decide)
    · exact absurd hle (by decide)
  · exact absurd h (by decide)

theorem scan_identifier {name : String} {cs : List Char} (h : isName name = true)
    (hcs : ∀ c ∈ cs.head?, isNameChar c = false) :
    scan (name.toList ++ cs) = .token (.identifier name) :: scan cs := by
  obtain ⟨c, rest, hname, hc, hrest⟩ := isName_iff.mp h
  have hnumber : ¬isNumberChar c = true := by simp [isNumberChar_of_isNameStart hc]
  rw [hname, List.cons_append, scan_cons, scanFirst, if_neg hnumber, if_pos hc,
    takeWhile_run hrest hcs, dropWhile_run hrest hcs, ← hname, String.ofList_toList]

theorem scan_quoted {payload : String} {cs : List Char}
    (h : ∀ c ∈ payload.toList, isQuotable c = true) :
    scan ('"' :: (payload.toList ++ '"' :: cs)) = .token (.quoted payload) :: scan cs := by
  have hstop : ∀ c ∈ ('"' :: cs).head?, isQuotable c = false := by
    intro c hc
    cases hc
    rfl
  rw [scan_cons, scanFirst, if_neg (by decide), if_neg (by decide), if_pos rfl, scanQuoted,
    dropWhile_run h hstop, takeWhile_run h hstop, String.ofList_toList]

/-- An operator whose first character alone is an operator, too, must not be followed by `=`. -/
theorem scan_operator {op : Operator} {cs : List Char}
    (hcs : ∀ c ∈ cs.head?, (Token.operator op).absorbs c = false) :
    scan (op.symbol.toList ++ cs) = .token (.operator op) :: scan cs := by
  have hone : ∀ c : Char, isNumberChar c = false → isNameStart c = false → isQuotable c = true →
      scan (c :: cs) = (scanSymbol c cs).1 :: scan (scanSymbol c cs).2 := by
    intro c hnumber hname hquote
    simp [scan_cons, scanFirst, hnumber, hname, isQuotable_iff.mp hquote]
  cases op with
  | lt =>
    show scan ('<' :: cs) = _
    rw [hone '<' rfl rfl rfl]
    cases cs with
    | nil => rfl
    | cons c cs =>
      have hc : c ≠ '=' := by simpa [absorbs] using hcs c rfl
      simp [scanSymbol, hc]
  | gt =>
    show scan ('>' :: cs) = _
    rw [hone '>' rfl rfl rfl]
    cases cs with
    | nil => rfl
    | cons c cs =>
      have hc : c ≠ '=' := by simpa [absorbs] using hcs c rfl
      simp [scanSymbol, hc]
  | add => exact hone '+' rfl rfl rfl
  | sub => exact hone '-' rfl rfl rfl
  | mul => exact hone '*' rfl rfl rfl
  | div => exact hone '/' rfl rfl rfl
  | rem => exact hone '%' rfl rfl rfl
  | pow => exact hone '^' rfl rfl rfl
  | eq => show scan ('=' :: '=' :: cs) = _; rw [scan_cons]; rfl
  | ne => show scan ('!' :: '=' :: cs) = _; rw [scan_cons]; rfl
  | le => show scan ('<' :: '=' :: cs) = _; rw [scan_cons]; rfl
  | ge => show scan ('>' :: '=' :: cs) = _; rw [scan_cons]; rfl

theorem scan_token {t : Token} {cs : List Char} (h : t.Lexical)
    (hcs : ∀ c ∈ cs.head?, t.absorbs c = false) :
    scan (t.text.toList ++ cs) = .token t :: scan cs := by
  cases t with
  | number literal => exact scan_number h hcs
  | identifier name => exact scan_identifier h hcs
  | quoted payload => simpa [Token.text] using @scan_quoted payload cs h
  | operator op => exact scan_operator hcs
  | assign =>
    show scan ('=' :: cs) = _
    rw [scan_cons]
    cases cs with
    | nil => rfl
    | cons c cs =>
      have hc : c ≠ '=' := by simpa [absorbs] using hcs c rfl
      simp [scanFirst, scanSymbol, isNumberChar, isNameStart, hc]
  | leftParen => show scan ('(' :: cs) = _; rw [scan_cons]; rfl
  | rightParen => show scan (')' :: cs) = _; rw [scan_cons]; rfl
  | comma => show scan (',' :: cs) = _; rw [scan_cons]; rfl
  | semicolon => show scan (';' :: cs) = _; rw [scan_cons]; rfl

/-! ## Many tokens -/

theorem scan_spell {ts : List Token} {cs : List Char} (hlexical : ∀ t ∈ ts, t.Lexical)
    (hseparated : Separated ts cs) :
    scan (spell ts ++ cs) = ts.map .token ++ scan cs := by
  induction ts with
  | nil => rfl
  | cons t ts ih =>
    obtain ⟨hstop, hrest⟩ := hseparated
    rw [spell_cons, List.append_assoc, scan_token (hlexical t List.mem_cons_self) hstop,
      ih (fun u hu => hlexical u (List.mem_cons_of_mem t hu)) hrest]
    rfl

theorem lexical_scanFirst {c : Char} {cs : List Char} {t : Token}
    (h : (scanFirst c cs).1 = .token t) : t.Lexical := by
  rw [scanFirst] at h
  split at h
  · rename_i hc
    cases h
    rw [Lexical, String.toList_ofList]
    refine ⟨List.cons_ne_nil _ _, ?_⟩
    intro d hd
    rcases List.mem_cons.mp hd with rfl | hd
    · exact hc
    · exact List.all_eq_true.mp List.all_takeWhile d hd
  split at h
  · rename_i hc
    cases h
    rw [Lexical, isName, String.toList_ofList]
    simp [hc, List.all_takeWhile]
  split at h
  · rw [scanQuoted] at h
    split at h
    · cases h
    · cases h
      rw [Lexical, String.toList_ofList]
      exact List.all_eq_true.mp List.all_takeWhile
  · unfold scanSymbol at h
    split at h <;> cases h <;> trivial

theorem lexical_of_mem_scan {cs : List Char} {t : Token} (h : .token t ∈ scan cs) : t.Lexical := by
  match cs with
  | [] =>
    rw [scan_nil] at h
    cases h
  | c :: cs =>
    rw [scan_cons] at h
    rcases List.mem_cons.mp h with h | h
    · exact lexical_scanFirst h.symm
    · exact lexical_of_mem_scan h
termination_by cs.length
decreasing_by exact length_scanFirst c cs

/-- A text in which no mark stands has no quoted tokens. -/
theorem not_quoted_of_mem_scan {cs : List Char} (h : ∀ c ∈ cs, isQuotable c = true) {t : Token}
    (ht : .token t ∈ scan cs) (payload : String) : t ≠ .quoted payload := by
  rintro rfl
  have hmark : '"' ∈ ((scan cs).map fun item => item.text.toList).flatten := by
    refine List.mem_flatten.mpr ⟨_, List.mem_map.mpr ⟨_, ht, rfl⟩, ?_⟩
    simp [text, Token.text]
  rw [text_scan] at hmark
  exact isQuotable_iff.mp (h '"' hmark) rfl

/-! ## Texts that begin with tokens -/

theorem scanSymbol_not_absorbs {c : Char} {cs : List Char} {t : Token}
    (h : (scanSymbol c cs).1 = .token t) :
    ∀ d ∈ (scanSymbol c cs).2.head?, t.absorbs d = false := by
  have hone : (∀ rest, cs = '=' :: rest → False) → ∀ d ∈ cs.head?, decide (d = '=') = false := by
    rintro hne d hd
    refine decide_eq_false ?_
    rintro rfl
    obtain ⟨rest, rfl⟩ := List.head?_eq_some_iff.mp hd
    exact hne rest rfl
  unfold scanSymbol at h ⊢
  -- a symbol that `=` would prolong is scanned only if no `=` follows
  split at h
  all_goals cases h
  all_goals first
    | exact fun _ _ => rfl
    | exact hone (by assumption)

theorem scanFirst_not_absorbs {c : Char} {cs : List Char} {t : Token}
    (h : (scanFirst c cs).1 = .token t) :
    ∀ d ∈ (scanFirst c cs).2.head?, t.absorbs d = false := by
  have hstop (p : Char → Bool) : ∀ d ∈ (cs.dropWhile p).head?, p d = false := by
    intro d hd
    have hhead := List.head?_dropWhile_not p cs
    rw [hd] at hhead
    simpa using hhead
  by_cases hnumber : isNumberChar c = true
  · rw [scanFirst, if_pos hnumber] at h ⊢
    cases h
    exact hstop isNumberChar
  by_cases hname : isNameStart c = true
  · rw [scanFirst, if_neg hnumber, if_pos hname] at h ⊢
    cases h
    exact hstop isNameChar
  by_cases hmark : c = '"'
  · rw [scanFirst, if_neg hnumber, if_neg hname, if_pos hmark, scanQuoted] at h ⊢
    split at h
    · cases h
    · cases h
      exact fun _ _ => rfl
  · rw [scanFirst, if_neg hnumber, if_neg hname, if_neg hmark] at h ⊢
    exact scanSymbol_not_absorbs h

theorem scan_eq_tokens {ts : List Token} {cs : List Char} {rest : List Item}
    (h : scan cs = ts.map .token ++ rest) :
    ∃ cs', cs = spell ts ++ cs' ∧ scan cs' = rest ∧ Separated ts cs' := by
  induction ts generalizing cs with
  | nil => exact ⟨cs, rfl, h, trivial⟩
  | cons t ts ih =>
    cases cs with
    | nil =>
      rw [scan_nil] at h
      cases h
    | cons c cs =>
      rw [scan_cons, List.map_cons, List.cons_append] at h
      obtain ⟨hfirst, hrest⟩ := List.cons.inj h
      obtain ⟨cs', hcs', hscan, hseparated⟩ := ih hrest
      have htext := text_scanFirst c cs
      rw [hfirst, hcs'] at htext
      refine ⟨cs', ?_, hscan, ?_, hseparated⟩
      · rw [spell_cons, List.append_assoc]
        exact htext.symm
      · rw [← hcs']
        exact scanFirst_not_absorbs hfirst

/-- The tokens of a text stay its tokens in front of what none of them absorbs. -/
theorem scan_append {ts : List Token} {cs cs' : List Char} (h : scan cs = ts.map .token)
    (hcs : Free cs') : scan (cs ++ cs') = ts.map .token ++ scan cs' := by
  obtain ⟨back, htext, hback, hseparated⟩ := scan_eq_tokens (h.trans (List.append_nil _).symm)
  obtain rfl : back = [] := by
    rw [← text_scan back, hback]
    rfl
  have hlexical : ∀ t ∈ ts, t.Lexical := by
    intro t ht
    have hmem : .token t ∈ scan cs := by
      rw [h]
      exact List.mem_map_of_mem ht
    exact lexical_of_mem_scan hmem
  rw [htext, List.append_nil, scan_spell hlexical (hseparated.free hcs)]

end Item
end FormulaLang
