import FormulaLang.Token.Basic

/-!
# FormulaLang.Token.Scan

Scanning a text into items. At each place the longest token wins; where no token starts, the item
is one bad character, or everything to the end if a quote is opened and never closed. Scanning
goes on behind a bad slice, so the items cover the whole text (`text_scan`).
-/

namespace FormulaLang

/-- Numbers are runs of digits and points, however many points there are. -/
def isNumberChar (c : Char) : Bool := c.isDigit || c = '.'

def isNameStart (c : Char) : Bool := c.isAlpha || c = '_'

def isNameChar (c : Char) : Bool := c.isAlphanum || c = '_'

def isQuotable (c : Char) : Bool := !(c = '"')

namespace Item

/-- The symbol at the start of a text. A `!` alone is none. -/
def scanSymbol (c : Char) (cs : List Char) : Item × List Char :=
  match c, cs with
  | '=', '=' :: cs => (.token (.operator .eq), cs)
  | '!', '=' :: cs => (.token (.operator .ne), cs)
  | '<', '=' :: cs => (.token (.operator .le), cs)
  | '>', '=' :: cs => (.token (.operator .ge), cs)
  | '<', cs => (.token (.operator .lt), cs)
  | '>', cs => (.token (.operator .gt), cs)
  | '=', cs => (.token .assign, cs)
  | '+', cs => (.token (.operator .add), cs)
  | '-', cs => (.token (.operator .sub), cs)
  | '*', cs => (.token (.operator .mul), cs)
  | '/', cs => (.token (.operator .div), cs)
  | '%', cs => (.token (.operator .rem), cs)
  | '^', cs => (.token (.operator .pow), cs)
  | '(', cs => (.token .leftParen, cs)
  | ')', cs => (.token .rightParen, cs)
  | ',', cs => (.token .comma, cs)
  | ';', cs => (.token .semicolon, cs)
  | c, cs => (.bad (.singleton c), cs)

def scanQuoted (cs : List Char) : Item × List Char :=
  match cs.dropWhile isQuotable with
  | [] => (.bad (.ofList ('"' :: cs)), [])
  | _ :: rest => (.token (.quoted (.ofList (cs.takeWhile isQuotable))), rest)

def scanFirst (c : Char) (cs : List Char) : Item × List Char :=
  if isNumberChar c then
    (.token (.number (.ofList (c :: cs.takeWhile isNumberChar))), cs.dropWhile isNumberChar)
  else if isNameStart c then
    (.token (.identifier (.ofList (c :: cs.takeWhile isNameChar))), cs.dropWhile isNameChar)
  else if c = '"' then scanQuoted cs
  else scanSymbol c cs

theorem text_scanFirst (c : Char) (cs : List Char) :
    (scanFirst c cs).1.text.toList ++ (scanFirst c cs).2 = c :: cs := by
  unfold scanFirst
  split
  · simp [text, Token.text, List.takeWhile_append_dropWhile]
  split
  · simp [text, Token.text, List.takeWhile_append_dropWhile]
  split
  · rename_i h
    subst h
    have hsplit := List.takeWhile_append_dropWhile (p := isQuotable) (l := cs)
    unfold scanQuoted
    split
    · simp [text]
    · rename_i d rest h
      have hd : d = '"' := by
        have := List.head?_dropWhile_not isQuotable cs
        simpa [h, isQuotable] using this
      subst hd
      rw [h] at hsplit
      simp [text, Token.text, hsplit]
  · unfold scanSymbol
    split <;> simp [text, Token.text, Operator.symbol]

theorem scanFirst_text_ne_nil (c : Char) (cs : List Char) :
    (scanFirst c cs).1.text.toList ≠ [] := by
  unfold scanFirst
  split
  · simp [text, Token.text]
  split
  · simp [text, Token.text]
  split
  · unfold scanQuoted
    split <;> simp [text, Token.text]
  · unfold scanSymbol
    split <;> simp [text, Token.text, Operator.symbol]

theorem length_scanFirst (c : Char) (cs : List Char) :
    (scanFirst c cs).2.length < (c :: cs).length := by
  have h := congrArg List.length (text_scanFirst c cs)
  have hpos := List.length_pos_iff.mpr (scanFirst_text_ne_nil c cs)
  simp only [List.length_append] at h
  omega

def scan (cs : List Char) : List Item :=
  match cs with
  | [] => []
  | c :: cs => (scanFirst c cs).1 :: scan (scanFirst c cs).2
termination_by cs.length
decreasing_by exact length_scanFirst c cs

theorem scan_nil : scan [] = [] := by rw [scan]

theorem scan_cons (c : Char) (cs : List Char) :
    scan (c :: cs) = (scanFirst c cs).1 :: scan (scanFirst c cs).2 := by rw [scan]

/-- The items of a text, put together, are the text. -/
theorem text_scan (cs : List Char) : ((scan cs).map fun item => item.text.toList).flatten = cs := by
  match cs with
  | [] => simp [scan_nil]
  | c :: cs =>
    have ih := text_scan (scanFirst c cs).2
    rw [scan_cons, List.map_cons, List.flatten_cons, ih, text_scanFirst]
termination_by cs.length
decreasing_by exact length_scanFirst c cs

end Item

end FormulaLang
