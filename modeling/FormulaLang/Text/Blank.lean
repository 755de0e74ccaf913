/-!
# FormulaLang.Text.Blank

White space: the characters with the Unicode property White_Space, of which core's
`Char.isWhitespace` covers only a part. Formulas drop blanks wherever they stand, also inside
quotes; names and values on the command line lose them at both ends.
-/

namespace FormulaLang.Text

/-- The ranges of code points with the property White_Space, both ends included. -/
def blankRanges : List (Nat × Nat) :=
  [(0x9, 0xD), (0x20, 0x20), (0x85, 0x85), (0xA0, 0xA0), (0x1680, 0x1680), (0x2000, 0x200A),
    (0x2028, 0x2029), (0x202F, 0x202F), (0x205F, 0x205F), (0x3000, 0x3000)]

def isBlank (c : Char) : Bool :=
  blankRanges.any fun (first, last) => first ≤ c.toNat && c.toNat ≤ last

/-- The text without its blanks. -/
def strip (s : String) : String := .ofList (s.toList.filter fun c => !isBlank c)

/-- The text without the blanks at its ends. -/
def trim (s : String) : String :=
  .ofList ((s.toList.dropWhile isBlank).reverse.dropWhile isBlank).reverse

theorem isBlank_of_mem_strip {s : String} {c : Char} (h : c ∈ (strip s).toList) :
    isBlank c = false := by
  simp only [strip, String.toList_ofList, List.mem_filter] at h
  simpa using h.2

theorem strip_eq_self {s : String} (h : ∀ c ∈ s.toList, isBlank c = false) : strip s = s := by
  rw [strip, List.filter_eq_self.mpr fun c hc => by rw [h c hc]; rfl, String.ofList_toList]

theorem strip_append (s t : String) : strip (s ++ t) = strip s ++ strip t := by
  simp [strip]

end FormulaLang.Text
