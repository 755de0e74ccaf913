import FormulaLang.Proofs.Spelling

/-!
# FormulaLang.Proofs.LongestMatch

The scanner against what it should do. The lexical tokens are those of the declared patterns.
`Longest` says which item begins a text without saying how it is found: the token with the longest
text there, or a bad slice if the text of no token is there. The scanner finds that item
(`scanFirst_eq_iff`).

Two tokens merge if the first absorbs the beginning of the second (`merges_eq_absorbs`). A list of
tokens is scanned from its text if and only if all of them are lexical and no two neighbours merge
(`scan_spell_eq_iff`).
-/

namespace FormulaLang

/-! ## Neighbours that merge -/

namespace Token

/-- The second token right behind the first would not be told apart from it. -/
def merges : Token → Token → Bool
  | .number _, .number _ => true
  | .identifier _, .identifier _ => true
  | .identifier _, .number literal => literal.toList.head?.any Char.isDigit
  | .assign, .assign => true
  | .assign, .operator .eq => true
  | .operator .lt, .assign => true
  | .operator .lt, .operator .eq => true
  | .operator .gt, .assign => true
  | .operator .gt, .operator .eq => true
  | _, _ => false

theorem isNameChar_of_isNumberChar {c : Char} (h : isNumberChar c = true) :
    isNameChar c = c.isDigit := by
  rcases Bool.or_eq_true_iff.mp h with hdigit | hpoint
  · simp [isNameChar, Char.isAlphanum, hdigit]
  · rw [of_decide_eq_true hpoint]
    rfl

theorem isNameChar_of_isNameStart {c : Char} (h : isNameStart c = true) : isNameChar c = true := by
  rcases Bool.or_eq_true_iff.mp h with halpha | hmark
  · simp [isNameChar, Char.isAlphanum, halpha]
  · simp [isNameChar, of_decide_eq_true hmark]

theorem merges_eq_absorbs {u : Token} (hu : u.Lexical) {c : Char} (hc : c ∈ u.text.toList.head?)
    (t : Token) : t.merges u = t.absorbs c := by
  cases u with
  | number literal =>
    have hmem : c ∈ literal.toList := List.mem_of_mem_head? hc
    have hnumber : isNumberChar c = true := hu.2 c hmem
    have hassign : c ≠ '=' := ne_of_class hnumber (by decide)
    have hdigit : literal.toList.head?.any Char.isDigit = isNameChar c := by
      rw [isNameChar_of_isNumberChar hnumber, show literal.toList.head? = some c from hc]
      rfl
    cases t with
    | number _ => exact hnumber.symm
    | identifier _ => exact hdigit
    | operator op => cases op <;> simp [merges, absorbs, hassign]
    | assign => simp [merges, absorbs, hassign]
    | _ => rfl
  | identifier name =>
    obtain ⟨d, cs, hname, hd, -⟩ := Item.isName_iff.mp hu
    obtain rfl : d = c := by simpa [text, hname] using hc
    have hassign : d ≠ '=' := ne_of_class hd (by decide)
    cases t with
    | number _ => exact (Item.isNumberChar_of_isNameStart hd).symm
    | identifier _ => exact (isNameChar_of_isNameStart hd).symm
    | operator op => cases op <;> simp [merges, absorbs, hassign]
    | assign => simp [merges, absorbs, hassign]
    | _ => rfl
  | quoted payload =>
    obtain rfl : '"' = c := by simpa [text] using hc
    cases t with
    | operator op => cases op <;> rfl
    | _ => rfl
  | operator op =>
    cases op <;> cases hc <;> cases t with
    | operator op => cases op <;> rfl
    | _ => rfl
  | assign | leftParen | rightParen | comma | semicolon =>
    cases hc
    cases t with
    | operator op => cases op <;> rfl
    | _ => rfl

theorem Lexical.text_ne_nil {t : Token} (h : t.Lexical) : t.text.toList ≠ [] := by
  cases t with
  | number literal => exact h.1
  | identifier name =>
    obtain ⟨c, cs, hname, -, -⟩ := Item.isName_iff.mp h
    rw [text, hname]
    exact List.cons_ne_nil c cs
  | quoted payload => simp [text]
  | operator op => cases op <;> exact List.cons_ne_nil _ _
  | _ => exact List.cons_ne_nil _ _

theorem separated_iff_isChain {ts : List Token} (h : ∀ t ∈ ts, t.Lexical) :
    Separated ts [] ↔ ts.IsChain fun t u => t.merges u = false := by
  induction ts with
  | nil => simp [Separated]
  | cons t ts ih =>
    have ih := ih fun u hu => h u (List.mem_cons_of_mem t hu)
    rw [Separated, ih]
    cases ts with
    | nil => simp
    | cons u us =>
      have hu : u.Lexical := h u (by simp)
      obtain ⟨c, cs, htext⟩ := List.exists_cons_of_ne_nil hu.text_ne_nil
      have hhead : (spell (u :: us) ++ []).head? = some c := by simp [htext]
      rw [hhead, List.isChain_cons_cons, merges_eq_absorbs hu (by rw [htext]; rfl)]
      simp

end Token

namespace Item

open Token

/-- **Tokens are read back from their texts** exactly if they are lexical and no neighbours merge. -/
theorem scan_spell_eq_iff {ts : List Token} :
    scan (spell ts) = ts.map .token ↔
      (∀ t ∈ ts, t.Lexical) ∧ ts.IsChain fun t u => t.merges u = false := by
  constructor
  · intro h
    have hlexical : ∀ t ∈ ts, t.Lexical := by
      intro t ht
      refine @lexical_of_mem_scan (spell ts) t ?_
      rw [h]
      exact List.mem_map_of_mem ht
    obtain ⟨cs, hcs, -, hseparated⟩ :=
      @scan_eq_tokens ts (spell ts) [] (by rw [h, List.append_nil])
    obtain rfl : cs = [] := by simpa using hcs
    exact ⟨hlexical, (separated_iff_isChain hlexical).mp hseparated⟩
  · rintro ⟨hlexical, hchain⟩
    have hscan := scan_spell hlexical ((separated_iff_isChain hlexical).mpr hchain)
    rwa [List.append_nil, scan_nil, List.append_nil] at hscan

/-! ## The longest match -/

/-- The first item of the text `cs` and what follows it. A bad slice is one character where no token
starts, or everything from a quote that is never closed. -/
inductive Longest (cs : List Char) : Item → List Char → Prop where
  | token {t : Token} {rest : List Char} : t.Lexical → t.text.toList ++ rest = cs →
      (∀ u : Token, u.Lexical → u.text.toList <+: cs →
        u.text.toList.length ≤ t.text.toList.length) →
      Longest cs (.token t) rest
  | character {c : Char} {rest : List Char} : c :: rest = cs → c ≠ '"' →
      (∀ u : Token, u.Lexical → ¬u.text.toList <+: cs) →
      Longest cs (.bad (.singleton c)) rest
  | unclosed {tail : List Char} : '"' :: tail = cs → (∀ c ∈ tail, c ≠ '"') →
      Longest cs (.bad (.ofList cs)) []

theorem scan_alone {t : Token} (h : t.Lexical) : scan t.text.toList = [.token t] := by
  have hscan := @scan_token t [] h nofun
  rwa [List.append_nil, scan_nil] at hscan

theorem eq_of_text_eq {t u : Token} (ht : t.Lexical) (hu : u.Lexical)
    (h : t.text.toList = u.text.toList) : t = u := by
  have hitems := scan_alone ht
  rw [h, scan_alone hu] at hitems
  cases hitems
  rfl

/-- A token that begins like a longer one absorbs the next character of that. -/
theorem absorbs_of_longer {t u : Token} (ht : t.Lexical) (hu : u.Lexical) {c : Char}
    {cs : List Char} (h : u.text.toList = t.text.toList ++ c :: cs) : t.absorbs c = true := by
  by_contra hc
  have hstop : ∀ d ∈ (c :: cs).head?, t.absorbs d = false := by
    rintro d ⟨⟩
    exact Bool.eq_false_iff.mpr hc
  have hscan := scan_alone hu
  rw [h, scan_token ht hstop, scan_cons] at hscan
  cases hscan

/-- The signs that `=` prolongs are tokens with and without it. -/
theorem exists_token_of_sign {c d : Char} {cs ds : List Char} (hd : d ∈ ['<', '>', '='])
    (h : d :: ds = c :: cs) : ∃ t, (scanFirst c cs).1 = .token t := by
  obtain ⟨rfl, rfl⟩ := List.cons.inj h
  simp only [List.mem_cons, List.not_mem_nil, or_false] at hd
  cases ds with
  | nil => rcases hd with rfl | rfl | rfl <;> exact ⟨_, rfl⟩
  | cons e es =>
    by_cases he : e = '='
    · subst he
      rcases hd with rfl | rfl | rfl <;> exact ⟨_, rfl⟩
    · rcases hd with rfl | rfl | rfl <;>
        simp [scanFirst, scanSymbol, isNumberChar, isNameStart, he]

theorem exists_token_of_prefix {u : Token} (hu : u.Lexical) {c : Char} {cs : List Char}
    (h : u.text.toList <+: c :: cs) : ∃ t, (scanFirst c cs).1 = .token t := by
  obtain ⟨rest, hrest⟩ := h
  by_cases hstop : ∀ d ∈ rest.head?, u.absorbs d = false
  · have hscan := scan_token hu hstop
    rw [hrest, scan_cons] at hscan
    exact ⟨u, (List.cons.inj hscan).1⟩
  -- a token that absorbs what follows begins a longer one
  cases u with
  | number literal =>
    obtain ⟨d, ds, hliteral⟩ := List.exists_cons_of_ne_nil hu.1
    obtain rfl : d = c := (List.cons.inj (hliteral ▸ hrest)).1
    have hd : isNumberChar d = true := hu.2 d (hliteral ▸ List.mem_cons_self)
    rw [scanFirst, if_pos hd]
    exact ⟨_, rfl⟩
  | identifier name =>
    obtain ⟨d, ds, hname, hd, -⟩ := isName_iff.mp hu
    obtain rfl : d = c := (List.cons.inj (hname ▸ hrest)).1
    have hnumber : ¬isNumberChar d = true := by simp [isNumberChar_of_isNameStart hd]
    rw [scanFirst, if_neg hnumber, if_pos hd]
    exact ⟨_, rfl⟩
  | operator op =>
    cases op with
    | lt => exact exists_token_of_sign (by decide) hrest
    | gt => exact exists_token_of_sign (by decide) hrest
    | _ => exact absurd (fun _ _ => rfl) hstop
  | assign => exact exists_token_of_sign (by decide) hrest
  | quoted _ | leftParen | rightParen | comma | semicolon => exact absurd (fun _ _ => rfl) hstop

theorem length_le_of_scanFirst {t u : Token} {c : Char} {cs rest : List Char}
    (h : scanFirst c cs = (.token t, rest)) (hu : u.Lexical)
    (hbegins : u.text.toList <+: c :: cs) : u.text.toList.length ≤ t.text.toList.length := by
  have ht : t.Lexical := lexical_scanFirst (congrArg Prod.fst h)
  have htext : t.text.toList ++ rest = c :: cs := by
    rw [← text_scanFirst c cs, h]
    rfl
  have hstop : ∀ d ∈ rest.head?, t.absorbs d = false := by
    have hnot := scanFirst_not_absorbs (congrArg Prod.fst h)
    rwa [h] at hnot
  by_contra hlonger
  obtain ⟨more, hmore⟩ : t.text.toList <+: u.text.toList :=
    List.prefix_of_prefix_length_le ⟨rest, htext⟩ hbegins (by omega)
  cases more with
  | nil =>
    rw [List.append_nil] at hmore
    rw [hmore] at hlonger
    exact hlonger (Nat.le_refl _)
  | cons d ds =>
    have habsorbs := absorbs_of_longer ht hu hmore.symm
    rw [← hmore, ← htext, List.prefix_append_right_inj] at hbegins
    obtain ⟨es, hes⟩ := hbegins
    rw [hstop d (by rw [← hes]; rfl)] at habsorbs
    cases habsorbs

theorem scanFirst_unclosed {cs : List Char} (h : ∀ c ∈ cs, c ≠ '"') :
    scanFirst '"' cs = (.bad (.ofList ('"' :: cs)), []) := by
  have hdrop : cs.dropWhile isQuotable = [] := by
    rw [List.dropWhile_eq_nil_iff]
    exact fun c hc => isQuotable_iff.mpr (h c hc)
  rw [scanFirst, if_neg (by decide), if_neg (by decide), if_pos rfl, scanQuoted, hdrop]

theorem scanFirst_eq_bad {c : Char} {cs rest : List Char} {slice : String}
    (h : scanFirst c cs = (.bad slice, rest)) :
    (c ≠ '"' ∧ slice = .singleton c ∧ rest = cs) ∨
      (c = '"' ∧ (∀ d ∈ cs, d ≠ '"') ∧ slice = .ofList (c :: cs) ∧ rest = []) := by
  by_cases hnumber : isNumberChar c = true
  · rw [scanFirst, if_pos hnumber] at h
    cases h
  by_cases hname : isNameStart c = true
  · rw [scanFirst, if_neg hnumber, if_pos hname] at h
    cases h
  by_cases hmark : c = '"'
  · rw [scanFirst, if_neg hnumber, if_neg hname, if_pos hmark, scanQuoted] at h
    split at h
    · rename_i hdrop
      cases h
      refine .inr ⟨hmark, fun d hd => ?_, by rw [hmark], rfl⟩
      exact isQuotable_iff.mp (List.dropWhile_eq_nil_iff.mp hdrop d hd)
    · cases h
  · rw [scanFirst, if_neg hnumber, if_neg hname, if_neg hmark] at h
    unfold scanSymbol at h
    split at h <;> cases h
    exact .inl ⟨hmark, rfl, rfl⟩

theorem longest_scanFirst (c : Char) (cs : List Char) :
    Longest (c :: cs) (scanFirst c cs).1 (scanFirst c cs).2 := by
  cases hfirst : scanFirst c cs with
  | mk item rest =>
    cases item with
    | token t =>
      have htext := text_scanFirst c cs
      rw [hfirst] at htext
      exact .token (lexical_scanFirst (congrArg Prod.fst hfirst)) htext
        fun u hu hbegins => length_le_of_scanFirst hfirst hu hbegins
    | bad slice =>
      obtain ⟨hc, rfl, rfl⟩ | ⟨rfl, hcs, rfl, rfl⟩ := scanFirst_eq_bad hfirst
      · refine .character rfl hc fun u hu hbegins => ?_
        obtain ⟨t, ht⟩ := exists_token_of_prefix hu hbegins
        rw [hfirst] at ht
        cases ht
      · exact .unclosed rfl hcs

theorem not_prefix_of_unclosed {cs : List Char} (h : ∀ c ∈ cs, c ≠ '"') {u : Token}
    (hu : u.Lexical) : ¬u.text.toList <+: '"' :: cs := by
  intro hbegins
  obtain ⟨t, ht⟩ := exists_token_of_prefix hu hbegins
  rw [scanFirst_unclosed h] at ht
  cases ht

theorem Longest.unique {cs rest rest' : List Char} {item item' : Item}
    (h : Longest cs item rest) (h' : Longest cs item' rest') : (item, rest) = (item', rest') := by
  cases h with
  | token ht htext hmax =>
    cases h' with
    | token ht' htext' hmax' =>
      have hlength := Nat.le_antisymm (hmax' _ ht ⟨_, htext⟩) (hmax _ ht' ⟨_, htext'⟩)
      obtain ⟨hsame, rfl⟩ := List.append_inj (htext.trans htext'.symm) hlength
      rw [eq_of_text_eq ht ht' hsame]
    | character _ _ hnone => exact absurd ⟨_, htext⟩ (hnone _ ht)
    | unclosed hcs hopen => exact absurd ⟨_, htext.trans hcs.symm⟩ (not_prefix_of_unclosed hopen ht)
  | character hcs hc hnone =>
    cases h' with
    | token ht' htext' _ => exact absurd ⟨_, htext'⟩ (hnone _ ht')
    | character hcs' _ _ =>
      obtain ⟨rfl, rfl⟩ := List.cons.inj (hcs.trans hcs'.symm)
      rfl
    | unclosed hcs' _ => exact absurd (List.cons.inj (hcs.trans hcs'.symm)).1 hc
  | unclosed hcs hopen =>
    cases h' with
    | token ht' htext' _ =>
      exact absurd ⟨_, htext'.trans hcs.symm⟩ (not_prefix_of_unclosed hopen ht')
    | character hcs' hc _ => exact absurd (List.cons.inj (hcs'.trans hcs.symm)).1 hc
    | unclosed _ _ => rfl

theorem scanFirst_eq_iff {c : Char} {cs rest : List Char} {item : Item} :
    scanFirst c cs = (item, rest) ↔ Longest (c :: cs) item rest := by
  constructor
  · intro h
    have hlongest := longest_scanFirst c cs
    rwa [h] at hlongest
  · exact (longest_scanFirst c cs).unique

end Item
end FormulaLang
