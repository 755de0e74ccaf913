import FormulaLang.Proofs.ErrorPosition
import FormulaLang.Proofs.Lookahead

/-!
# FormulaLang.Proofs.FirstError

Errors come as soon as they can. The item at which a parse error is raised is the first one that
makes the text hopeless: the tokens in front of it begin a formula (`exists_completion`), with the
item behind them no formula does, and what follows the item makes no difference. Main statement:
`parse_error_first`.
-/

namespace FormulaLang
namespace Grammar

open Item Program Token

/-! ## Texts of tokens and fillers -/

theorem Filler.lexical {t : Token} (h : Filler t) : t.Lexical := by
  rcases h with rfl | rfl
  · intro c hc
    cases hc
  · trivial

theorem Filler.not_absorbs {t : Token} (h : Filler t) (c : Char) : t.absorbs c = false := by
  rcases h with rfl | rfl <;> rfl

theorem Filler.not_blank {t : Token} (h : Filler t) :
    ∀ c ∈ t.text.toList, Text.isBlank c = false := by
  rcases h with rfl | rfl <;> simp [Token.text] <;> rfl

theorem separated_fillers {back : List Token} (h : ∀ t ∈ back, Filler t) :
    Separated back [] := by
  induction back with
  | nil => trivial
  | cons t back ih =>
    rw [List.forall_mem_cons] at h
    exact ⟨fun c _ => h.1.not_absorbs c, ih h.2⟩

theorem free_fillers {back : List Token} (h : ∀ t ∈ back, Filler t) : Free (spell back) := by
  cases back with
  | nil => exact free_nil
  | cons t back =>
    rcases h t List.mem_cons_self with rfl | rfl
    · exact free_cons rfl rfl (by decide) _
    · exact free_cons rfl rfl (by decide) _

theorem not_blank_fillers {back : List Token} (h : ∀ t ∈ back, Filler t) :
    ∀ c ∈ spell back, Text.isBlank c = false := by
  intro c hc
  obtain ⟨t, ht, hmem⟩ := List.mem_flatMap.mp hc
  exact (h t ht).not_blank c hmem

/-- Fillers can be written behind the first tokens of any text. -/
theorem exists_text_fillers {s : String} {front back : List Token} {rest : List Item}
    (hscan : scan (Text.strip s).toList = front.map .token ++ rest) (hback : ∀ t ∈ back, Filler t) :
    ∃ s', scan (Text.strip s').toList = (front ++ back).map .token := by
  obtain ⟨cs, htext, -, hseparated⟩ := scan_eq_tokens hscan
  have hlexical : ∀ t ∈ front ++ back, t.Lexical := by
    intro t ht
    rcases List.mem_append.mp ht with ht | ht
    · have hmem : .token t ∈ scan (Text.strip s).toList := by
        rw [hscan]
        exact List.mem_append_left rest (List.mem_map_of_mem ht)
      exact lexical_of_mem_scan hmem
    · exact (hback t ht).lexical
  have hseparated' : Separated (front ++ back) [] := by
    rw [separated_append, List.append_nil]
    exact ⟨hseparated.free (free_fillers hback), separated_fillers hback⟩
  have hblank : ∀ c ∈ spell (front ++ back), Text.isBlank c = false := by
    intro c hc
    rw [spell_append] at hc
    rcases List.mem_append.mp hc with hc | hc
    · exact Text.isBlank_of_mem_strip (by rw [htext]; exact List.mem_append_left cs hc)
    · exact not_blank_fillers hback c hc
  refine ⟨.ofList (spell (front ++ back)), ?_⟩
  rw [Text.strip_eq_self (by rwa [String.toList_ofList]), String.toList_ofList,
    ← List.append_nil (spell _), scan_spell hlexical hseparated', scan_nil, List.append_nil]

/-! ## The first error -/

/-- A text that begins with the same items up to the one at which the reading failed fails in the
same way. -/
theorem parse_error_of_prefix {s s' : String} {front : List Token} {x : Item} {rest : List Item}
    {f : Failure} (hread : readProgram (scan (Text.strip s).toList) = .error f)
    (hscan : scan (Text.strip s).toList = front.map .token ++ x :: rest) (hrest : f.rest = x :: rest)
    (hbegins : front.map .token ++ [x] <+: scan (Text.strip s').toList) :
    parse s' = .error ⟨f.cause, f.position (scan (Text.strip s).toList)⟩ := by
  obtain ⟨rest', hscan'⟩ := hbegins
  rw [List.append_assoc, List.singleton_append] at hscan'
  rw [hscan] at hread ⊢
  rw [parse_eq_error_iff, ← hscan']
  refine ⟨_, readProgram_error_of_prefix hread hrest rest', ?_⟩
  rw [position_append hrest, position_append rfl]

/-- A parse error is raised at the first item that makes the text hopeless. The items in front of
it are tokens and begin a formula; if it is a token as well, no formula begins with it behind them;
and every text that begins with these items fails with the same error, whatever follows. -/
theorem parse_error_first {s : String} {e : ParseError} (h : parse s = .error e) :
    ∃ (front : List Token) (rest : List Item),
      scan (Text.strip s).toList = front.map .token ++ rest ∧
      Locates e.position (front.map .token) rest ∧
      (∃ s' back p, parse s' = .ok p ∧
        scan (Text.strip s').toList = (front ++ back).map .token) ∧
      (∀ t, rest.head? = some (.token t) → ∀ s' p, parse s' = .ok p →
        ¬(front ++ [t]).map .token <+: scan (Text.strip s').toList) ∧
      ∀ item, rest.head? = some item →
        ∀ s', front.map .token ++ [item] <+: scan (Text.strip s').toList → parse s' = .error e := by
  obtain ⟨f, front, back, hread, hback, ⟨p, hder⟩, hraised⟩ := parse_error_raised h
  have hscan := hraised.eq_append
  have hsame : ∀ item, f.rest.head? = some item →
      ∀ s', front.map .token ++ [item] <+: scan (Text.strip s').toList → parse s' = .error e := by
    intro item hitem s' hbegins
    obtain ⟨rest, hrest⟩ := List.head?_eq_some_iff.mp hitem
    rw [hrest] at hscan
    obtain ⟨f', hread', rfl⟩ := parse_eq_error_iff.mp h
    rw [hread] at hread'
    cases hread'
    exact parse_error_of_prefix hread hscan hrest hbegins
  refine ⟨front, f.rest, hscan, hraised.locates fun _ => size_pos_of_mem_scan, ?_, ?_, hsame⟩
  · obtain ⟨s', hs'⟩ := exists_text_fillers hscan hback
    exact ⟨s', back, p, parse_eq_ok_iff_derives.mpr ⟨_, hs', hder⟩, hs'⟩
  · intro t ht s' p' hp' hbegins
    rw [List.map_append] at hbegins
    rw [hsame _ ht s' hbegins] at hp'
    cases hp'

/-- A comma in a group is reported, not the quote that is opened behind it and never closed. -/
theorem parse_error_first_comma :
    parse "(a, \"" = .error ⟨.missingClosingParen, 2⟩ ∧
    ∀ s', [.token .leftParen, .token (.identifier "a"), .token .comma] <+:
      scan (Text.strip s').toList → parse s' = .error ⟨.missingClosingParen, 2⟩ := by
  have hparse : parse "(a, \"" = .error ⟨.missingClosingParen, 2⟩ := by cbv
  have hscan : scan (Text.strip "(a, \"").toList =
      [.token .leftParen, .token (.identifier "a")] ++ .token .comma :: [.bad "\""] := by cbv
  have hcomma : Locates 2 [.token .leftParen, .token (.identifier "a")]
      (.token .comma :: [.bad "\""]) := by
    simp only [Locates]
    decide
  obtain ⟨front, rest, heq, hlocates, -, -, hsame⟩ := parse_error_first hparse
  obtain ⟨hfront, rfl⟩ := Locates.unique (heq.symm.trans hscan) hlocates hcomma
  rw [hfront] at hsame
  exact ⟨hparse, hsame _ rfl⟩

end Grammar
end FormulaLang
