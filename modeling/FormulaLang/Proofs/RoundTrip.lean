import FormulaLang.Proofs.RenderCorrect

/-!
# FormulaLang.Proofs.RoundTrip

Reading, rendering and reading again. Everything that was read is `Written` (`written_of_parse`), so
its rendered text is read again; what comes back is the tree itself exactly if no literal was too
large for a finite double (`reparse_iff_finite`). The text of an infinite number is a name, and is
read as a variable.
-/

namespace FormulaLang
namespace Grammar

open FormulaLang.Expr Token

/-! ## Tokens of what was scanned -/

theorem mem_scan_of_map {cs : List Char} {tokens : List Token}
    (h : Item.scan cs = tokens.map .token) {t : Token} (ht : t ∈ tokens) :
    .token t ∈ Item.scan cs := by
  rw [h]
  exact List.mem_map.mpr ⟨t, ht, rfl⟩

/-! ## Numbers -/

theorem word_le (d : Decimal) : d.word ≤ Binary64.infinityWord := by
  rw [Decimal.word]
  split
  · exact Nat.min_le_left _ _
  · exact Nat.min_le_left _ _

theorem written_num (d : Decimal) : Written (.num d.toFloat) := by
  have hmagnitude := Binary64.magnitude_ofWord false (word_le d)
  have hsign := Binary64.isNegative_ofWord false (word_le d)
  refine ⟨named_num, unnested_of_isQuote rfl, numeric_num.mpr ?_, fit_num.mpr hsign⟩
  rw [Bool.eq_false_iff, ne_eq, Binary64.isNaN_iff, Decimal.toFloat, hmagnitude]
  exact Nat.not_lt.mpr (word_le d)

/-! ## Derivations -/

/-- What is known of a tree by the tokens it was derived from. -/
structure Made (tokens : List Token) (es : List Expr) : Prop where
  written : EverywhereIn Written es
  quoteFree : (∀ t ∈ tokens, ∀ payload, t ≠ .quoted payload) →
    EverywhereIn (fun c => c.isQuote = false) es

theorem Made.one {tokens : List Token} {e : Expr} (hw : Everywhere Written e)
    (hq : (∀ t ∈ tokens, ∀ payload, t ≠ .quoted payload) →
      Everywhere (fun c => c.isQuote = false) e) : Made tokens [e] :=
  ⟨everywhereIn_cons.mpr ⟨hw, everywhereIn_nil⟩,
    fun h => everywhereIn_cons.mpr ⟨hq h, everywhereIn_nil⟩⟩

theorem Made.cons {ts us : List Token} {sep : Token} {e : Expr} {es : List Expr}
    (h : Made ts [e]) (hs : Made us es) : Made (ts ++ sep :: us) (e :: es) := by
  refine ⟨everywhereIn_cons.mpr ⟨(everywhereIn_cons.mp h.written).1, hs.written⟩, ?_⟩
  intro hq
  rw [List.forall_mem_append, List.forall_mem_cons] at hq
  exact everywhereIn_cons.mpr ⟨(everywhereIn_cons.mp (h.quoteFree hq.1)).1, hs.quoteFree hq.2.2⟩

/-- A node that is neither a number nor a quote. -/
theorem written_of_named {n : Expr} (hn : Named n) (hfit : Fit n) (hx : ∀ x, n ≠ .num x)
    (hq : n.isQuote = false) : Written n :=
  ⟨hn, unnested_of_isQuote hq, fun x h => absurd h (hx x), hfit⟩

mutual

theorem Primary.made : ∀ {tokens : List Token} {e : Expr}, Primary tokens e →
    (∀ t ∈ tokens, t.Lexical) → Made tokens [e] ∧ e.isAssign = false
  | _, _, .number _, _ => by
    refine ⟨.one ?_ fun _ => ?_, rfl⟩
    · simpa using written_num _
    · simp [Expr.isQuote]
  | _, _, @Primary.quoted payload tokens p hscan hp, h => by
    have hpayload : ∀ c ∈ payload.toList, isQuotable c = true := h _ List.mem_cons_self
    have hmade := hp.made fun t ht => Item.lexical_of_mem_scan (mem_scan_of_map hscan ht)
    have hfree := hmade.quoteFree fun t ht =>
      Item.not_quoted_of_mem_scan hpayload (mem_scan_of_map hscan ht)
    refine ⟨.one ?_ fun hq => absurd rfl (hq _ List.mem_cons_self payload), rfl⟩
    rw [everywhere_quote]
    exact ⟨⟨named_quote, unnested_quote.mpr hfree, by simp [Numeric], fit_quote⟩, hmade.written⟩
  | _, _, @Primary.variable name, h => by
    have hname : isName name = true := h _ List.mem_cons_self
    refine ⟨.one ?_ fun _ => ?_, rfl⟩
    · rw [everywhere_var]
      exact written_of_named (named_var.mpr hname) fit_var (by simp) rfl
    · simp [Expr.isQuote]
  | _, _, @Primary.callEmpty name, h => by
    have hname : isName name = true := h _ List.mem_cons_self
    refine ⟨.one ?_ fun _ => ?_, rfl⟩
    · rw [everywhere_call]
      exact ⟨written_of_named (named_call.mpr hname) fit_call (by simp) rfl, everywhereIn_nil⟩
    · simp [Expr.isQuote]
  | _, _, @Primary.call name tokens _ hargs, h => by
    rw [List.forall_mem_cons, List.forall_mem_cons, List.forall_mem_append] at h
    have hname : isName name = true := h.1
    have hmade := hargs.made h.2.2.1
    refine ⟨.one ?_ fun hq => ?_, rfl⟩
    · rw [everywhere_call]
      exact ⟨written_of_named (named_call.mpr hname) fit_call (by simp) rfl, hmade.written⟩
    · rw [List.forall_mem_cons, List.forall_mem_cons, List.forall_mem_append] at hq
      rw [everywhere_call]
      exact ⟨rfl, hmade.quoteFree hq.2.2.1⟩
  | _, _, .group hc, h => by
    rw [List.forall_mem_cons, List.forall_mem_append] at h
    obtain ⟨hmade, hassign⟩ := hc.made h.2.1
    refine ⟨⟨hmade.written, fun hq => ?_⟩, hassign⟩
    rw [List.forall_mem_cons, List.forall_mem_append] at hq
    exact hmade.quoteFree hq.2.1

theorem Chain.made : ∀ {level : Nat} {tokens : List Token} {e : Expr}, Chain level tokens e →
    (∀ t ∈ tokens, t.Lexical) → Made tokens [e] ∧ e.isAssign = false
  | _, _, _, .operand hp, h => hp.made h
  | _, _, _, .single hc, h => hc.made h
  | _, _, _, .apply _ hl hr, h => by
    rw [List.forall_mem_append, List.forall_mem_cons] at h
    obtain ⟨hleft, hal⟩ := hl.made h.1
    obtain ⟨hright, har⟩ := hr.made h.2.2
    have hwl := (everywhereIn_cons.mp hleft.written).1
    have hwr := (everywhereIn_cons.mp hright.written).1
    refine ⟨.one ?_ fun hq => ?_, rfl⟩
    · rw [everywhere_binary]
      exact ⟨written_of_named named_binary (fit_binary.mpr ⟨hal, har⟩) (by simp) rfl, hwl, hwr⟩
    · rw [List.forall_mem_append, List.forall_mem_cons] at hq
      rw [everywhere_binary]
      exact ⟨rfl, (everywhereIn_cons.mp (hleft.quoteFree hq.1)).1,
        (everywhereIn_cons.mp (hright.quoteFree hq.2.2)).1⟩

theorem Statement.made : ∀ {tokens : List Token} {e : Expr}, Statement tokens e →
    (∀ t ∈ tokens, t.Lexical) → Made tokens [e]
  | _, _, @Statement.assign name _ _ hc, h => by
    rw [List.forall_mem_cons, List.forall_mem_cons] at h
    have hname : isName name = true := h.1
    obtain ⟨hvalue, hassign⟩ := hc.made h.2.2
    have hw := (everywhereIn_cons.mp hvalue.written).1
    refine .one ?_ fun hq => ?_
    · rw [everywhere_assign]
      exact ⟨written_of_named (named_assign.mpr hname) (fit_assign.mpr hassign) (by simp) rfl, hw⟩
    · rw [List.forall_mem_cons, List.forall_mem_cons] at hq
      rw [everywhere_assign]
      exact ⟨rfl, (everywhereIn_cons.mp (hvalue.quoteFree hq.2.2)).1⟩
  | _, _, .expression hc, h => (hc.made h).1

theorem Arguments.made : ∀ {tokens : List Token} {es : List Expr}, Arguments tokens es →
    (∀ t ∈ tokens, t.Lexical) → Made tokens es
  | _, _, .last hs, h => hs.made h
  | _, _, .cons hs hes, h => by
    rw [List.forall_mem_append, List.forall_mem_cons] at h
    exact (hs.made h.1).cons (hes.made h.2.2)

theorem Statements.made : ∀ {tokens : List Token} {p : Program}, Statements tokens p →
    (∀ t ∈ tokens, t.Lexical) → Made tokens p
  | _, _, .empty, _ => ⟨everywhereIn_nil, fun _ => everywhereIn_nil⟩
  | _, _, .last hs, h => hs.made h
  | _, _, .cons hs hp, h => by
    rw [List.forall_mem_append, List.forall_mem_cons] at h
    exact (hs.made h.1).cons (hp.made h.2.2)

end

theorem written_of_parse {s : String} {p : Program} (h : Program.parse s = .ok p) :
    EverywhereIn Written p := by
  obtain ⟨tokens, hscan, hp⟩ := parse_eq_ok_iff_derives.mp h
  exact (hp.made fun t ht => Item.lexical_of_mem_scan (mem_scan_of_map hscan ht)).written

/-- A numeral is a formula, whose value is the double nearest to it. -/
theorem parse_numeral {cs : List Char} (h : Decimal.Numeral cs) :
    Program.parse (.ofList cs) = .ok [.num (Decimal.numeral cs).toFloat] := by
  have hlexical : (Token.number (.ofList cs)).Lexical := by
    obtain ⟨c, hc, -⟩ := h.digit
    rw [Lexical, String.toList_ofList]
    exact ⟨List.ne_nil_of_mem hc, h.chars⟩
  have hstrip : (Text.strip (.ofList cs)).toList = cs := by
    rw [Text.strip, String.toList_ofList, String.toList_ofList, List.filter_eq_self]
    intro c hc
    rw [isBlank_of_isNumberChar (h.chars c hc)]
    rfl
  have hscan := Item.scan_number hlexical (by simp : ∀ c ∈ ([] : List Char).head?, _)
  have hprimary : Primary [.number (.ofList cs)] _ := .number (by rwa [String.toList_ofList])
  rw [String.toList_ofList, List.append_nil, Item.scan_nil] at hscan
  rw [String.toList_ofList] at hprimary
  rw [parse_eq_ok_iff_derives, hstrip, hscan]
  exact ⟨_, rfl, .last (.expression (hprimary.chain _))⟩

/-- **What comes back.** The rendered text of what was read is always read, with each infinite
number as the variable that its text spells. So the same tree comes back exactly if every literal
was near enough to a finite double. -/
theorem reparse_iff_finite {s : String} {p : Program} (h : Program.parse s = .ok p) :
    Program.parse p.render = .ok (Expr.rereadAll p) ∧
    (Program.parse p.render = .ok p ↔ ∀ x, .num x ∈ p.nodes → x.isFinite = true) := by
  have hreparse := parse_render_reread (written_of_parse h)
  have hiff := @rereadAll_eq_self_iff p
  refine ⟨hreparse, ?_⟩
  constructor
  · intro hself x hnode
    rw [hreparse] at hself
    exact hiff.mp (Except.ok.inj hself) _ hnode x rfl
  · intro hfinite
    rw [hreparse, hiff.mpr]
    intro n hnode x hx
    subst hx
    exact hfinite x hnode

/-- Ten to the power of 309 is beyond the finite doubles. -/
theorem reparse_iff_finite_overlong :
    ∃ p, Program.parse (.ofList ('1' :: List.replicate 309 '0')) = .ok p ∧
      Program.parse p.render = .ok [.var "inf"] ∧ Program.parse p.render ≠ .ok p := by
  have hdigits : ∀ c ∈ '1' :: List.replicate 309 '0', c.isDigit = true := by
    rw [List.forall_mem_cons]
    exact ⟨rfl, fun c hc => Decimal.isDigit_of_mem_zeros hc⟩
  have hword : (Decimal.numeral ('1' :: List.replicate 309 '0')).word = Binary64.infinityWord := by
    decide +kernel
  have hnumeral := (Decimal.numeral_digits_iff hdigits).mpr (List.cons_ne_nil _ _)
  have hparse := parse_numeral hnumeral
  rw [Decimal.toFloat, hword] at hparse
  have hinfinite : (Binary64.ofWord false Binary64.infinityWord).isFinite = false := by
    rw [Bool.eq_false_iff, ne_eq, Binary64.isFinite_iff,
      Binary64.magnitude_ofWord false (Nat.le_refl _)]
    omega
  obtain ⟨hread, hself⟩ := reparse_iff_finite hparse
  refine ⟨_, hparse, ?_, ?_⟩
  · rw [hread, Expr.rereadAll, Expr.rereadAll, Expr.reread, hinfinite]
    rfl
  · rw [ne_eq, hself]
    intro hfinite
    have hfinite := hfinite (Binary64.ofWord false Binary64.infinityWord) List.mem_cons_self
    rw [hinfinite] at hfinite
    cases hfinite

end Grammar
end FormulaLang
