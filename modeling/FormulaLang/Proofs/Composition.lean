import FormulaLang.Proofs.Batch
import FormulaLang.Proofs.Lookahead
import FormulaLang.Proofs.Rendered

/-!
# FormulaLang.Proofs.Composition

Texts put together. A text of one statement with no `;` behind it (`Reads`) can stand in
parentheses, if it is not an assignment, and among the arguments of a call: its tokens stay what
they are in front of `)` and `,`, and they derive its tree wherever they stand. A text without a
mark can stand between two: it is read on its own there, and an error in it stays the same but for
its position. Main statement: `parse_compose`.
-/

namespace FormulaLang
namespace Grammar

open Item Program Token

/-- The text is that of a single statement, with no `;` behind it. -/
structure Reads (s : String) (e : Expr) : Prop where
  parse : Program.parse s = .ok [e]
  last : (Text.strip s).toList.getLast? ≠ some ';'

theorem Reads.statement {s : String} {e : Expr} (h : Reads s e) :
    ∃ ts, scan (Text.strip s).toList = ts.map .token ∧ Statement ts e := by
  obtain ⟨ts, hscan, hder⟩ := parse_eq_ok_iff_derives.mp h.parse
  cases hder with
  | last hstatement => exact ⟨ts, hscan, hstatement⟩
  | cons _ hrest =>
    have hne := ne_nil_of_getLast (getLast_of_text hscan h.last)
    cases hrest
    exact absurd rfl hne

theorem parse_of_statement {s : String} {e : Expr} (ts : List Token)
    (hscan : scan (Text.strip s).toList = ts.map .token) (h : Statement ts e) :
    Program.parse s = .ok [e] :=
  parse_eq_ok_iff_derives.mpr ⟨ts, hscan, .last h⟩

/-! ## Marks around texts -/

theorem scan_leftParen (cs : List Char) : scan ('(' :: cs) = .token .leftParen :: scan cs :=
  scan_token (t := .leftParen) trivial fun _ _ => rfl

theorem scan_comma (cs : List Char) : scan (',' :: cs) = .token .comma :: scan cs :=
  scan_token (t := .comma) trivial fun _ _ => rfl

theorem scan_rightParen : scan [')'] = [.token .rightParen] := by
  have hscan : scan [')'] = .token .rightParen :: scan [] :=
    scan_token (t := .rightParen) trivial fun _ _ => rfl
  rwa [scan_nil] at hscan

theorem strip_parens (s : String) :
    (Text.strip ("(" ++ s ++ ")")).toList = '(' :: ((Text.strip s).toList ++ [')']) := by
  have hopen : Text.strip "(" = "(" := by decide
  have hclose : Text.strip ")" = ")" := by decide
  rw [Text.strip_append, Text.strip_append, hopen, hclose, String.toList_append,
    String.toList_append, List.append_assoc]
  rfl

/-- The tokens of a text stay what they are between parentheses. -/
theorem scan_parens {s : String} {ts : List Token}
    (h : scan (Text.strip s).toList = ts.map .token) :
    scan (Text.strip ("(" ++ s ++ ")")).toList =
      (.leftParen :: (ts ++ [Token.rightParen])).map .token := by
  rw [strip_parens, scan_leftParen, scan_append h (free_cons rfl rfl (by decide) []),
    scan_rightParen, List.map_cons, List.map_append]
  rfl

/-! ## Groups and calls -/

theorem parse_group {s : String} {e : Expr} (h : Reads s e) (he : e.isAssign = false) :
    Program.parse ("(" ++ s ++ ")") = .ok [e] := by
  obtain ⟨ts, hscan, hstatement⟩ := h.statement
  cases hstatement with
  | assign _ => cases he
  | expression hchain =>
    exact parse_of_statement _ (scan_parens hscan)
      (.expression ((Primary.group hchain).chain loosestLevel))

/-- Texts with commas between them are the arguments of a call. -/
theorem exists_arguments {ss : List String} {es : List Expr} (h : List.Forall₂ Reads ss es)
    (hne : ss ≠ []) :
    ∃ ts, scan (Text.strip (",".intercalate ss)).toList = ts.map .token ∧ Arguments ts es := by
  induction h with
  | nil => exact absurd rfl hne
  | @cons s e ss es hs hss ih =>
    obtain ⟨ts, hscan, hstatement⟩ := hs.statement
    cases hss with
    | nil => exact ⟨ts, by rw [String.intercalate_singleton, hscan], .last hstatement⟩
    | @cons s' e' ss es =>
      obtain ⟨us, hscans, harguments⟩ := ih (by simp)
      refine ⟨ts ++ .comma :: us, ?_, .cons hstatement harguments⟩
      have hcomma : Text.strip "," = "," := by decide
      rw [String.intercalate_cons_cons, Text.strip_append, Text.strip_append, hcomma,
        String.toList_append, String.toList_append, List.append_assoc]
      show scan ((Text.strip s).toList ++ ',' :: (Text.strip (",".intercalate (s' :: ss))).toList) = _
      rw [scan_append hscan (free_cons rfl rfl (by decide) _), scan_comma, hscans, List.map_append]
      rfl

theorem strip_name {f : String} (hf : isName f = true) : Text.strip f = f :=
  Text.strip_eq_self fun c hc => isBlank_of_isNameChar (isNameChar_of_isName hf c hc)

theorem exists_call (f : String) {ss : List String} {es : List Expr}
    (h : List.Forall₂ Reads ss es) :
    ∃ ts, scan (Text.strip (",".intercalate ss)).toList = ts.map .token ∧
      Primary (.identifier f :: .leftParen :: (ts ++ [.rightParen])) (.call f es) := by
  cases h with
  | nil => exact ⟨[], scan_nil, .callEmpty⟩
  | cons hs hss =>
    obtain ⟨ts, hscan, harguments⟩ := exists_arguments (.cons hs hss) (by simp)
    exact ⟨ts, hscan, .call harguments⟩

theorem parse_call {f : String} (hf : isName f = true) {ss : List String} {es : List Expr}
    (h : List.Forall₂ Reads ss es) :
    Program.parse (f ++ "(" ++ ",".intercalate ss ++ ")") = .ok [.call f es] := by
  obtain ⟨ts, hscan, hcall⟩ := exists_call f h
  refine parse_of_statement _ ?_ (.expression (hcall.chain loosestLevel))
  have htext : f ++ "(" ++ ",".intercalate ss ++ ")" = f ++ ("(" ++ ",".intercalate ss ++ ")") := by
    simp only [String.append_assoc]
  have hfree : ∀ c ∈ (Text.strip ("(" ++ ",".intercalate ss ++ ")")).toList.head?,
      isNameChar c = false := by
    rw [strip_parens]
    rintro c ⟨⟩
    rfl
  rw [htext, Text.strip_append, strip_name hf, String.toList_append, scan_identifier hf hfree,
    scan_parens hscan]
  rfl

/-! ## Quotes -/

theorem parse_quoted {s : String} (hs : '"' ∉ s.toList) :
    Program.parse ("\"" ++ s ++ "\"") =
      match Program.parse s with
      | .ok p => .ok [.quote p]
      | .error err => .error (err.shift 1) := by
  have hscan : scan (Text.strip ("\"" ++ s ++ "\"")).toList = [.token (.quoted (Text.strip s))] := by
    have hmark : Text.strip "\"" = "\"" := by decide
    have hquotable : ∀ c ∈ (Text.strip s).toList, isQuotable c = true := by
      intro c hc
      rw [isQuotable_iff]
      rintro rfl
      simp only [Text.strip, String.toList_ofList, List.mem_filter] at hc
      exact hs hc.1
    have hquoted := @scan_quoted _ [] hquotable
    rw [scan_nil] at hquoted
    rw [Text.strip_append, Text.strip_append, hmark, String.toList_append, String.toList_append,
      List.append_assoc]
    exact hquoted
  cases hparse : Program.parse s with
  | ok p =>
    obtain ⟨ts, hpayload, hder⟩ := parse_eq_ok_iff_derives.mp hparse
    exact parse_of_statement [.quoted (Text.strip s)] hscan
      (.expression ((Primary.quoted hpayload hder).chain loosestLevel))
  | error err =>
    obtain ⟨f, hfails, rfl⟩ := parse_eq_error_iff.mp hparse
    refine parse_eq_error_iff.mpr ⟨⟨f.cause, 1 + f.position (scan (Text.strip s).toList),
      [.token (.quoted (Text.strip s))]⟩, ?_, ?_⟩
    · have hprimary : primary [.token (.quoted (Text.strip s))] = .error ⟨f.cause,
          1 + f.position (scan (Text.strip s).toList), [.token (.quoted (Text.strip s))]⟩ := by
        rw [primary_eq]
        simp only [hfails]
      rw [hscan, readProgram_eq (by simp), statement_of_not_assign (by simp),
        chain_error hprimary]
    · rw [hscan]
      simp [ParseError.shift, Failure.position, Nat.add_comm 1]

/-- **Texts compose.** A text of one statement, with no semicolon at its end, is read as the same
tree in parentheses, unless it is an assignment, and among the arguments of a call. A text without
a quotation mark is read between two of them as it is alone, and an error in it is the same one
byte further. -/
theorem parse_compose :
    (∀ s e, Reads s e → e.isAssign = false → Program.parse ("(" ++ s ++ ")") = .ok [e]) ∧
    (∀ f ss es, isName f = true → List.Forall₂ Reads ss es →
      Program.parse (f ++ "(" ++ ",".intercalate ss ++ ")") = .ok [.call f es]) ∧
    ∀ s, '"' ∉ s.toList → Program.parse ("\"" ++ s ++ "\"") =
      match Program.parse s with
      | .ok p => .ok [.quote p]
      | .error err => .error (err.shift 1) :=
  ⟨fun _ _ => parse_group, fun _ _ _ hf => parse_call hf, fun _ => parse_quoted⟩

/-- A call in parentheses, of an assignment and a quote that does not end. -/
theorem parse_compose_call :
    Program.parse "(f( x = a,b))" = .ok [.call "f" [.assign "x" (.var "a"), .var "b"]] ∧
    Program.parse "\"f(a\"" = .error ⟨.missingClosingParen, 4⟩ := by
  have hassign : Reads " x = a" (.assign "x" (.var "a")) :=
    ⟨parse_of_statement [.identifier "x", .assign, .identifier "a"] (by cbv)
      (.assign (Primary.variable.chain _)), by decide⟩
  have hvar : Reads "b" (.var "b") :=
    ⟨parse_of_statement [.identifier "b"] (by cbv)
      (.expression (Primary.variable.chain _)), by decide⟩
  obtain ⟨hgroup, hcall, hquoted⟩ := parse_compose
  have hf : Reads "f( x = a,b)" (.call "f" [.assign "x" (.var "a"), .var "b"]) := by
    have htext : "f" ++ "(" ++ ",".intercalate [" x = a", "b"] ++ ")" = "f( x = a,b)" := by decide
    refine ⟨?_, by decide⟩
    rw [← htext]
    exact hcall "f" [" x = a", "b"] _ rfl (.cons hassign (.cons hvar .nil))
  have hopen : Program.parse "f(a" = .error ⟨.missingClosingParen, 3⟩ := by
    cbv
  constructor
  · exact hgroup "f( x = a,b)" _ hf rfl
  · have hmarks := hquoted "f(a" (by decide)
    rw [hopen] at hmarks
    exact hmarks

end Grammar
end FormulaLang
