import FormulaLang.Proofs.ParseCorrect
import FormulaLang.Proofs.Refusal
import FormulaLang.Proofs.Spelling

/-!
# FormulaLang.Proofs.ErrorPosition

Where errors are. The items of a text are its parts in order, so the bytes in front of an item are
the sizes of the items before it. The position of a parse error is a byte where items begin
(`Begins`), in the text itself or inside the marks of a quoted token, and the cause is true of the
items from there on. Main statement: `parse_error_position`.
-/

namespace FormulaLang

namespace Item

/-! ## Items as parts of a text -/

def join (items : List Item) : String := .ofList (items.map fun item => item.text.toList).flatten

theorem join_cons (item : Item) (items : List Item) : join (item :: items) = item.text ++ join items := by
  simp [join, String.ofList_append]

theorem join_append (items items' : List Item) : join (items ++ items') = join items ++ join items' := by
  simp [join, String.ofList_append]

theorem join_scan (s : String) : join (scan s.toList) = s := by
  rw [join, text_scan, String.ofList_toList]

theorem utf8ByteSize_join (items : List Item) : (join items).utf8ByteSize = totalSize items := by
  induction items with
  | nil => rfl
  | cons item items ih => rw [join_cons, String.utf8ByteSize_append, ih, totalSize, size]

theorem totalSize_append (items items' : List Item) :
    totalSize (items ++ items') = totalSize items + totalSize items' := by
  rw [← utf8ByteSize_join, join_append, String.utf8ByteSize_append, utf8ByteSize_join,
    utf8ByteSize_join]

theorem totalSize_scan (s : String) : totalSize (scan s.toList) = s.utf8ByteSize := by
  rw [← utf8ByteSize_join, join_scan]

theorem size_quoted (payload : String) :
    size (.token (.quoted payload)) = 1 + payload.utf8ByteSize + 1 := by
  rw [size, text, Token.text, String.utf8ByteSize_append, String.utf8ByteSize_append]
  rfl

theorem size_pos_of_mem_scan {cs : List Char} {item : Item} (h : item ∈ scan cs) : 0 < item.size := by
  match cs with
  | [] =>
    rw [scan_nil] at h
    cases h
  | c :: cs =>
    rw [scan_cons] at h
    rcases List.mem_cons.mp h with rfl | h
    · rw [size, Nat.pos_iff_ne_zero, ne_eq, String.utf8ByteSize_eq_zero_iff]
      intro hempty
      exact scanFirst_text_ne_nil c cs (by rw [hempty, String.toList_empty])
    · exact size_pos_of_mem_scan h
termination_by cs.length
decreasing_by exact length_scanFirst c cs

/-- The byte lies in the first of `rest`, in front of which `front` stand, or it is the end of the
text and nothing is left. -/
def Locates (n : Nat) (front : List Item) : List Item → Prop
  | [] => n = totalSize front
  | item :: _ => totalSize front ≤ n ∧ n < totalSize front + item.size

theorem Locates.unique {n : Nat} {front front' rest rest' : List Item} {item : Item}
    (heq : front ++ rest = front' ++ item :: rest') (h : Locates n front rest)
    (h' : Locates n front' (item :: rest')) : front = front' ∧ rest = item :: rest' := by
  induction front generalizing front' n with
  | nil =>
    cases front' with
    | nil => exact ⟨rfl, heq⟩
    | cons z front' =>
      obtain rfl : rest = z :: (front' ++ item :: rest') := heq
      simp only [Locates, totalSize] at h h'
      omega
  | cons z front ih =>
    cases front' with
    | nil =>
      obtain ⟨rfl, -⟩ := List.cons.inj heq
      cases rest with
      | nil =>
        simp only [Locates, totalSize] at h h'
        omega
      | cons x rest =>
        simp only [Locates, totalSize] at h h'
        omega
    | cons z' front' =>
      obtain ⟨rfl, htail⟩ := List.cons.inj heq
      have hinner : Locates (n - z.size) front rest := by
        cases rest with
        | nil =>
          simp only [Locates, totalSize] at h ⊢
          omega
        | cons x rest =>
          simp only [Locates, totalSize] at h ⊢
          omega
      simp only [Locates, totalSize] at h'
      obtain ⟨hfront, hrest⟩ := ih htail hinner (by simp only [Locates]; omega)
      exact ⟨congrArg _ hfront, hrest⟩

/-- From byte `n` on, `rest` are the items: those of the text, or those of the text between the
marks of a quoted token. -/
inductive Begins (items : List Item) : Nat → List Item → Prop where
  | outside {front rest : List Item} : items = front ++ rest → Begins items (totalSize front) rest
  | inside {front rest front' rest' : List Item} {payload : String} :
      items = front ++ .token (.quoted payload) :: rest → scan payload.toList = front' ++ rest' →
      Begins items (totalSize front + 1 + totalSize front') rest'

theorem Begins.join_eq {items rest : List Item} {n : Nat} (h : Begins items n rest) :
    ∃ pre post, join items = pre ++ join rest ++ post ∧ pre.utf8ByteSize = n := by
  cases h with
  | @outside front rest heq =>
    exact ⟨join front, "", by rw [heq, join_append, String.append_empty], utf8ByteSize_join front⟩
  | @inside front after front' rest payload heq hpayload =>
    refine ⟨join front ++ "\"" ++ join front', "\"" ++ join after, ?_, ?_⟩
    · have htext : payload = join front' ++ join rest := by
        rw [← join_append, ← hpayload, join_scan]
      rw [heq, join_append, join_cons, text, Token.text, htext]
      simp only [String.append_assoc]
    · rw [String.utf8ByteSize_append, String.utf8ByteSize_append, utf8ByteSize_join,
        utf8ByteSize_join]
      rfl

/-- The byte of the mark that ends a quoted token. -/
def ClosingMark (items : List Item) (n : Nat) : Prop :=
  ∃ front payload rest, items = front ++ .token (.quoted payload) :: rest ∧
    n = totalSize front + 1 + payload.utf8ByteSize

theorem Begins.end_eq {items : List Item} {n : Nat} (h : Begins items n []) :
    n = totalSize items ∨ ClosingMark items n := by
  cases h with
  | outside heq => exact .inl (by rw [heq, List.append_nil])
  | @inside front rest front' _ payload heq hpayload =>
    refine .inr ⟨front, payload, rest, heq, ?_⟩
    rw [← totalSize_scan payload, hpayload, List.append_nil]

end Item

open Item Program

/-! ## Causes -/

/-- The first unread item is what the error complains about. -/
theorem ParseError.Cause.Refuses.text_eq {cause : Cause} {items : List Item} {found : String}
    (h : cause.Refuses items) (hfound : cause.found? = some found) :
    ∃ item rest, items = item :: rest ∧ item.text = found := by
  cases cause with
  | unexpectedCharacter slice =>
    obtain ⟨rest, rfl⟩ := h
    cases hfound
    exact ⟨_, rest, rfl, rfl⟩
  | unexpectedToken text =>
    obtain ⟨t, rest, rfl, rfl⟩ := h
    cases hfound
    exact ⟨_, rest, rfl, rfl⟩
  | unexpectedEnd => cases hfound
  | missingClosingParen => cases hfound
  | expectedComma text =>
    obtain ⟨t, rest, rfl, rfl⟩ := h
    cases hfound
    exact ⟨_, rest, rfl, rfl⟩
  | invalidNumber literal =>
    obtain ⟨rest, rfl⟩ := h
    cases hfound
    exact ⟨_, rest, rfl, rfl⟩

/-! ## Where an error is raised -/

namespace ParseError

/-- The error is raised at the first of `rest`, in front of which the tokens `front` stand, or in
the quote that this item is. -/
inductive Raised (items : List Item) : ParseError → List Token → List Item → Prop where
  | outside {cause : Cause} {front : List Token} {rest : List Item} :
      items = front.map .token ++ rest → cause.Refuses rest →
      Raised items ⟨cause, totalSize (front.map .token)⟩ front rest
  | inside {e : ParseError} {payload : String} {front : List Token} {rest front' rest' : List Item} :
      items = front.map .token ++ .token (.quoted payload) :: rest → parse payload = .error e →
      scan payload.toList = front' ++ rest' → e.position = totalSize front' →
      e.cause.Refuses rest' →
      Raised items (e.shift (totalSize (front.map .token) + 1)) front
        (.token (.quoted payload) :: rest)

namespace Raised

variable {items rest : List Item} {e : ParseError} {front : List Token}

theorem eq_append (h : Raised items e front rest) : items = front.map .token ++ rest := by
  cases h with
  | outside heq _ => exact heq
  | inside heq _ _ _ _ => exact heq

theorem begins (h : Raised items e front rest) :
    ∃ rest', Begins items e.position rest' ∧ e.cause.Refuses rest' := by
  cases h with
  | outside heq hrefuses => exact ⟨rest, .outside heq, hrefuses⟩
  | @inside e payload _ after front' rest' heq _ hpayload hposition hrefuses =>
    refine ⟨rest', ?_, hrefuses⟩
    have hbegins := Begins.inside heq hpayload
    rw [← hposition, Nat.add_comm] at hbegins
    exact hbegins

theorem locates (h : Raised items e front rest) (hpos : ∀ item ∈ items, 0 < item.size) :
    Locates e.position (front.map .token) rest := by
  cases h with
  | outside heq _ =>
    cases rest with
    | nil => rfl
    | cons item rest =>
      exact ⟨Nat.le_refl _, Nat.lt_add_of_pos_right (hpos item (by simp [heq]))⟩
  | @inside e payload _ after front' rest' _ _ hpayload hposition _ =>
    have hbytes : totalSize front' + totalSize rest' = payload.utf8ByteSize := by
      rw [← totalSize_append, ← hpayload, totalSize_scan]
    have hsize := size_quoted payload
    simp only [Locates, shift]
    omega

end Raised
end ParseError

namespace Grammar

theorem position_append {front rest : List Item} {f : Failure} (hrest : f.rest = rest) :
    f.position (front ++ rest) = totalSize front + f.inner := by
  rw [Failure.position, hrest, totalSize_append, Nat.add_sub_cancel]

/-- A failure in front of which no quote begins is one of the items themselves. -/
theorem refuses_of_justified {f : Failure} (h : f.Justified)
    (hquoted : ∀ payload rest, f.rest ≠ .token (.quoted payload) :: rest) :
    f.inner = 0 ∧ f.cause.Refuses f.rest := by
  cases h with
  | here hrefuses => exact ⟨rfl, hrefuses⟩
  | inside _ => exact absurd rfl (hquoted _ _)

/-- A text that stands in a quote is scanned and read like any other; it has no blanks and no
quotes. -/
theorem payload_error {cs : List Char} {payload : String} {g : Failure}
    (hblank : ∀ c ∈ cs, Text.isBlank c = false) (hmem : .token (.quoted payload) ∈ scan cs)
    (hg : readProgram (scan payload.toList) = .error g) :
    parse payload = .error ⟨g.cause, g.position (scan payload.toList)⟩ ∧
    ∃ front' rest', scan payload.toList = front' ++ rest' ∧
      g.position (scan payload.toList) = totalSize front' ∧ g.cause.Refuses rest' := by
  have hquotable : ∀ c ∈ payload.toList, isQuotable c = true := lexical_of_mem_scan hmem
  have hplain : ∀ c ∈ payload.toList, Text.isBlank c = false := by
    intro c hc
    refine hblank c ?_
    rw [← text_scan cs]
    refine List.mem_flatten.mpr ⟨_, List.mem_map.mpr ⟨_, hmem, rfl⟩, ?_⟩
    simp [Item.text, Token.text, hc]
  obtain ⟨hjust, front, -, heq, -⟩ := readProgram_fails _ hg
  have hquoted : ∀ payload' rest, g.rest ≠ .token (.quoted payload') :: rest := by
    intro payload' rest hrest
    exact not_quoted_of_mem_scan hquotable (t := .quoted payload') (by simp [heq, hrest]) payload' rfl
  obtain ⟨hinner, hrefuses⟩ := refuses_of_justified hjust hquoted
  constructor
  · rw [parse_eq_error_iff, Text.strip_eq_self hplain]
    exact ⟨g, hg, rfl⟩
  · refine ⟨_, _, heq, ?_, hrefuses⟩
    rw [heq, position_append rfl, hinner, Nat.add_zero]

theorem parse_error_raised {s : String} {e : ParseError} (h : parse s = .error e) :
    ∃ f front back, readProgram (scan (Text.strip s).toList) = .error f ∧
      (∀ t ∈ back, Filler t) ∧ (∃ p, Statements (front ++ back) p) ∧
      e.Raised (scan (Text.strip s).toList) front f.rest := by
  obtain ⟨f, hread, rfl⟩ := parse_eq_error_iff.mp h
  obtain ⟨hjust, front, back, heq, hback, hcomplete⟩ := readProgram_fails _ hread
  refine ⟨f, front, back, hread, hback, hcomplete, ?_⟩
  rw [heq, position_append rfl]
  cases hjust with
  | here hrefuses => exact .outside rfl hrefuses
  | @inside payload g rest hg =>
    obtain ⟨herror, front', rest', hpayload, hposition, hrefuses⟩ :=
      payload_error (fun _ => Text.isBlank_of_mem_strip) (by rw [heq]; simp) hg
    have hraised : ParseError.Raised (front.map .token ++ .token (.quoted payload) :: rest) _ _ _ :=
      .inside rfl herror hpayload hposition hrefuses
    have hshift : g.position (scan payload.toList) + (totalSize (front.map .token) + 1) =
        totalSize (front.map .token) + (1 + g.position (scan payload.toList)) := by omega
    rw [ParseError.shift, hshift] at hraised
    exact hraised

/-- Errors point at what they report, which may stand in a quote. An error between the marks of a
quote is the one that its text fails with when it is parsed alone. -/
theorem parse_error_position {s : String} {e : ParseError} (h : parse s = .error e) :
    (e.position ≤ (Text.strip s).utf8ByteSize ∧
      (String.Pos.Raw.mk e.position).IsValid (Text.strip s)) ∧
    (∀ found, e.cause.found? = some found →
      ∃ pre post, Text.strip s = pre ++ found ++ post ∧ pre.utf8ByteSize = e.position) ∧
    (e.cause = .unexpectedEnd → e.position = (Text.strip s).utf8ByteSize ∨
      ClosingMark (scan (Text.strip s).toList) e.position) ∧
    (e.cause = .missingClosingParen → e.position = (Text.strip s).utf8ByteSize ∨
      ClosingMark (scan (Text.strip s).toList) e.position ∨
      ∃ t rest, Begins (scan (Text.strip s).toList) e.position (.token t :: rest) ∧
        t ≠ .rightParen) ∧
    ∀ front payload rest, scan (Text.strip s).toList = front ++ .token (.quoted payload) :: rest →
      totalSize front + 1 ≤ e.position →
      e.position ≤ totalSize front + 1 + payload.utf8ByteSize →
      ∃ e', parse payload = .error e' ∧ e = e'.shift (totalSize front + 1) := by
  obtain ⟨f, front, back, -, -, -, hraised⟩ := parse_error_raised h
  obtain ⟨rest, hbegins, hrefuses⟩ := hraised.begins
  obtain ⟨pre, post, htext, hpre⟩ := hbegins.join_eq
  rw [join_scan] at htext
  refine ⟨⟨?_, ?_⟩, ?_, ?_, ?_, ?_⟩
  · rw [htext, String.utf8ByteSize_append, String.utf8ByteSize_append]
    omega
  · rw [String.Pos.Raw.isValid_iff_exists_append]
    refine ⟨pre, join rest ++ post, by rw [htext, String.append_assoc], ?_⟩
    rw [← hpre]
    rfl
  · intro found hfound
    obtain ⟨item, rest', rfl, rfl⟩ := hrefuses.text_eq hfound
    exact ⟨pre, join rest' ++ post, by rw [htext, join_cons]; simp only [String.append_assoc], hpre⟩
  · intro hcause
    rw [hcause] at hrefuses
    obtain rfl : rest = [] := hrefuses
    rw [← totalSize_scan]
    exact hbegins.end_eq
  · intro hcause
    rw [hcause] at hrefuses
    rcases hrefuses with rfl | ⟨t, rest', rfl, ht⟩
    · rw [← totalSize_scan, ← or_assoc]
      exact .inl hbegins.end_eq
    · exact .inr (.inr ⟨t, rest', hbegins, ht⟩)
  · intro front' payload rest' heq hfrom hto
    have hquote : Locates e.position front' (.token (.quoted payload) :: rest') := by
      have hsize := size_quoted payload
      simp only [Locates]
      omega
    obtain ⟨hfront, hrest⟩ := Locates.unique (hraised.eq_append.symm.trans heq)
      (hraised.locates fun _ => size_pos_of_mem_scan) hquote
    rw [hrest] at hraised
    rw [← hfront] at hfrom ⊢
    cases hraised with
    | outside => exact absurd hfrom (Nat.not_succ_le_self _)
    | inside _ herror => exact ⟨_, herror, rfl⟩

/-- A bad character of two bytes in a quote, behind blanks. -/
theorem parse_error_position_quoted :
    parse "a + \"b * é\"" = .error ⟨.unexpectedCharacter "é", 5⟩ ∧
    (∃ pre post, Text.strip "a + \"b * é\"" = pre ++ "é" ++ post ∧ pre.utf8ByteSize = 5) ∧
    ∃ e, parse "b*é" = .error e ∧ ⟨.unexpectedCharacter "é", 5⟩ = e.shift 3 := by
  have hparse : parse "a + \"b * é\"" = .error ⟨.unexpectedCharacter "é", 5⟩ := by cbv
  have hscan : scan (Text.strip "a + \"b * é\"").toList =
      [.token (.identifier "a"), .token (.operator .add)] ++ [.token (.quoted "b*é")] := by cbv
  obtain ⟨-, hfound, -, -, hquoted⟩ := parse_error_position hparse
  exact ⟨hparse, hfound "é" rfl, hquoted _ _ _ hscan (by decide) (by decide)⟩

end Grammar
end FormulaLang
