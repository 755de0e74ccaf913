import FormulaLang.Proofs.ErrorPosition
import FormulaLang.Proofs.LongestMatch

/-!
# FormulaLang.Proofs.Spans

Scanning with places. A span is an item with the byte where it begins and the byte behind it; the
latter is known from how much text is left. The spans of a text are not empty, each begins where
the one before it ends, and they cover the text (`contiguous_spans`). What a span cuts out of the
text is the text of its item (`cuts_of_mem_spans`).

Main statement: scanning loses nothing, finds the longest matches, and reads back the texts of
tokens that do not merge (`scan_lossless`).
-/

namespace FormulaLang
namespace Item

open Token

structure Span where
  item : Item
  first : Nat
  last : Nat
  deriving DecidableEq, Repr

def spansFrom (start : Nat) (cs : List Char) : List Span :=
  match cs with
  | [] => []
  | c :: cs =>
    let stop := start + (String.utf8Len (c :: cs) - String.utf8Len (scanFirst c cs).2)
    ⟨(scanFirst c cs).1, start, stop⟩ :: spansFrom stop (scanFirst c cs).2
termination_by cs.length
decreasing_by exact length_scanFirst c cs

def spans (s : String) : List Span := spansFrom 0 s.toList

/-- Spans that are not empty and cover the bytes from `start` to `stop` in order. -/
def Contiguous : (start stop : Nat) → List Span → Prop
  | start, stop, [] => start = stop
  | start, stop, span :: spans =>
    span.first = start ∧ span.first < span.last ∧ Contiguous span.last stop spans

/-- A bad slice is one character, or it is everything from a quote that is never closed. -/
def Span.Excused (s : String) (span : Span) : Prop :=
  ∀ slice, span.item = .bad slice →
    (∃ c, slice = .singleton c) ∨
      (∃ cs : List Char, slice = .ofList ('"' :: cs) ∧ ∀ c ∈ cs, c ≠ '"') ∧
        span.last = s.utf8ByteSize

/-- The span begins and ends between characters of the text, and has the text of its item there. -/
structure Span.Cuts (s : String) (span : Span) : Prop where
  first : (String.Pos.Raw.mk span.first).IsValid s
  last : (String.Pos.Raw.mk span.last).IsValid s
  extract : String.Pos.Raw.extract s ⟨span.first⟩ ⟨span.last⟩ = span.item.text

theorem spansFrom_nil (start : Nat) : spansFrom start [] = [] := by rw [spansFrom]

/-- What is no longer left is the text of the item. -/
theorem spansFrom_cons (start : Nat) (c : Char) (cs : List Char) :
    spansFrom start (c :: cs) =
      ⟨(scanFirst c cs).1, start, start + (scanFirst c cs).1.size⟩ ::
        spansFrom (start + (scanFirst c cs).1.size) (scanFirst c cs).2 := by
  have hsize : String.utf8Len (c :: cs) - String.utf8Len (scanFirst c cs).2 =
      (scanFirst c cs).1.size := by
    rw [← text_scanFirst c cs, String.utf8Len_append, Nat.add_sub_cancel, String.utf8Len_toList]
    rfl
  rw [spansFrom, hsize]

theorem items_spansFrom (start : Nat) (cs : List Char) :
    (spansFrom start cs).map Span.item = scan cs := by
  match cs with
  | [] => rw [spansFrom_nil, scan_nil, List.map_nil]
  | c :: cs => rw [spansFrom_cons, scan_cons, List.map_cons, items_spansFrom]
termination_by cs.length
decreasing_by exact length_scanFirst c cs

theorem contiguous_spansFrom (start : Nat) (cs : List Char) :
    Contiguous start (start + String.utf8Len cs) (spansFrom start cs) := by
  match cs with
  | [] =>
    rw [spansFrom_nil]
    rfl
  | c :: cs =>
    have ih := contiguous_spansFrom (start + (scanFirst c cs).1.size) (scanFirst c cs).2
    have hpos : 0 < (scanFirst c cs).1.size :=
      @size_pos_of_mem_scan (c :: cs) _ (by rw [scan_cons]; exact List.mem_cons_self)
    have hlen : String.utf8Len (c :: cs) =
        (scanFirst c cs).1.size + String.utf8Len (scanFirst c cs).2 := by
      rw [size, ← String.utf8Len_toList, ← String.utf8Len_append, text_scanFirst]
    rw [spansFrom_cons, hlen, ← Nat.add_assoc]
    exact ⟨rfl, Nat.lt_add_of_pos_right hpos, ih⟩
termination_by cs.length
decreasing_by exact length_scanFirst c cs

theorem contiguous_spans (s : String) : Contiguous 0 s.utf8ByteSize (spans s) := by
  have h := contiguous_spansFrom 0 s.toList
  rwa [Nat.zero_add, String.utf8Len_toList] at h

theorem isValid_utf8Len (pre post : List Char) :
    (String.Pos.Raw.mk (String.utf8Len pre)).IsValid (.ofList (pre ++ post)) := by
  rw [String.Pos.Raw.isValid_iff_exists_append]
  refine ⟨.ofList pre, .ofList post, String.ofList_append .., ?_⟩
  rw [String.rawEndPos, ← String.utf8Len_toList, String.toList_ofList]

theorem cuts_middle (pre post : List Char) (item : Item) :
    Span.Cuts (.ofList (pre ++ (item.text.toList ++ post)))
      ⟨item, String.utf8Len pre, String.utf8Len pre + item.size⟩ := by
  have hlast : String.utf8Len pre + item.size = String.utf8Len (pre ++ item.text.toList) := by
    rw [String.utf8Len_append, String.utf8Len_toList]
    rfl
  have hextract := String.extract_of_valid pre item.text.toList post
  rw [String.utf8Len_toList, String.ofList_toList, List.append_assoc] at hextract
  constructor
  · exact isValid_utf8Len pre (item.text.toList ++ post)
  · rw [hlast, ← List.append_assoc]
    exact isValid_utf8Len (pre ++ item.text.toList) post
  · exact hextract

theorem excused_scanFirst (pre : List Char) (c : Char) (cs : List Char) :
    Span.Excused (.ofList (pre ++ c :: cs))
      ⟨(scanFirst c cs).1, String.utf8Len pre, String.utf8Len pre + (scanFirst c cs).1.size⟩ := by
  intro slice hslice
  obtain ⟨-, rfl, -⟩ | ⟨rfl, hcs, rfl, -⟩ :=
    scanFirst_eq_bad (show scanFirst c cs = (.bad slice, (scanFirst c cs).2) by rw [← hslice])
  · exact .inl ⟨c, rfl⟩
  · refine .inr ⟨⟨cs, rfl, hcs⟩, ?_⟩
    show String.utf8Len pre + (scanFirst '"' cs).1.size = _
    rw [← String.utf8Len_toList, String.toList_ofList, String.utf8Len_append, scanFirst_unclosed hcs,
      size, text, ← String.utf8Len_toList, String.toList_ofList]

/-- The text in front is part of the induction, since places are counted from its start. -/
theorem spansFrom_sound (pre cs : List Char) :
    ∀ span ∈ spansFrom (String.utf8Len pre) cs,
      span.Cuts (.ofList (pre ++ cs)) ∧ span.Excused (.ofList (pre ++ cs)) := by
  match cs with
  | [] =>
    rw [spansFrom_nil]
    exact nofun
  | c :: cs =>
    intro span hspan
    rw [spansFrom_cons] at hspan
    rcases List.mem_cons.mp hspan with rfl | hspan
    · have hcuts := cuts_middle pre (scanFirst c cs).2 (scanFirst c cs).1
      rw [text_scanFirst] at hcuts
      exact ⟨hcuts, excused_scanFirst pre c cs⟩
    · have ih := spansFrom_sound (pre ++ (scanFirst c cs).1.text.toList) (scanFirst c cs).2
      rw [List.append_assoc, text_scanFirst, String.utf8Len_append, String.utf8Len_toList] at ih
      exact ih span hspan
termination_by cs.length
decreasing_by exact length_scanFirst c cs

theorem spans_sound (s : String) : ∀ span ∈ spans s, span.Cuts s ∧ span.Excused s := by
  have h := spansFrom_sound [] s.toList
  rwa [List.nil_append, String.ofList_toList] at h

/-- **Scanning loses nothing, and reads back what was written.** The spans of every text are not
empty and cover it in order; each token has the text of its span; and a bad slice is one character
or everything from a quote that is never closed. At each place the item is the longest match.
Tokens are scanned from their texts, put together, exactly if they are lexical and no two
neighbours merge. -/
theorem scan_lossless :
    (∀ s : String, (spans s).map Span.item = scan s.toList ∧
      Contiguous 0 s.utf8ByteSize (spans s) ∧ ∀ span ∈ spans s, span.Cuts s ∧ span.Excused s) ∧
    (∀ c cs item rest, scanFirst c cs = (item, rest) ↔ Longest (c :: cs) item rest) ∧
    ∀ ts : List Token, scan (spell ts) = ts.map .token ↔
      (∀ t ∈ ts, t.Lexical) ∧ ts.IsChain fun t u => t.merges u = false := by
  refine ⟨fun s => ⟨items_spansFrom 0 s.toList, contiguous_spans s, spans_sound s⟩, ?_, ?_⟩
  · exact fun _ _ _ _ => scanFirst_eq_iff
  · exact fun _ => scan_spell_eq_iff

theorem scan_lossless_mixed :
    (⟨.bad "é", 0, 2⟩ : Span) ∈ spans "é<=\"x" ∧
    Span.Cuts "é<=\"x" ⟨.bad "\"x", 4, 6⟩ ∧
    scan (spell [.identifier "x", .assign, .operator .le, .number ".5", .identifier "e1"]) =
      [.token (.identifier "x"), .token .assign, .token (.operator .le), .token (.number ".5"),
        .token (.identifier "e1")] := by
  obtain ⟨hspans, -, hspell⟩ := scan_lossless
  have hmem : spans "é<=\"x" =
      [⟨.bad "é", 0, 2⟩, ⟨.token (.operator .le), 2, 4⟩, ⟨.bad "\"x", 4, 6⟩] := by cbv
  have hlexical : ∀ t ∈ [Token.identifier "x", .assign, .operator .le, .number ".5",
      .identifier "e1"], t.Lexical := by
    simp [Lexical, isName, isNameStart, isNameChar, isNumberChar]
  refine ⟨by simp [hmem], ((hspans _).2.2 _ (by simp [hmem])).1, (hspell _).mpr ⟨hlexical, ?_⟩⟩
  simp [merges]

end Item
end FormulaLang
