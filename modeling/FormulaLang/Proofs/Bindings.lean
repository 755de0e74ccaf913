import FormulaLang.CommandLine.Binding
import FormulaLang.Decimal.Shortest
import FormulaLang.Proofs.Rendered
import FormulaLang.Proofs.SignedNumeral

/-!
# FormulaLang.Proofs.Bindings

Bindings written down and read again.

* `Text.Bare`: a text without blanks at its ends. Trimming gives such a text (`bare_trim`), and
  finds it between blanks (`trim_between`).
* `Bindable`: the names that a binding can give a value to, bare ones without `=`. Every binding
  that is read has such a name (`bindable_of_readBinding`).
* `readBinding_spaced`: the text of a bindable name and of a double, with blanks around the sign, is
  read as that name and that double.
-/

namespace FormulaLang

/-! ## Blanks at the ends -/

namespace Text

structure Bare (cs : List Char) : Prop where
  head : ∀ c ∈ cs.head?, isBlank c = false
  last : ∀ c ∈ cs.getLast?, isBlank c = false

theorem dropWhile_of_head {cs : List Char} (h : ∀ c ∈ cs.head?, isBlank c = false) :
    cs.dropWhile isBlank = cs := by
  cases cs with
  | nil => rfl
  | cons c cs => exact List.dropWhile_cons_of_neg (by rw [h c rfl]; exact Bool.false_ne_true)

theorem head_dropWhile (cs : List Char) : ∀ c ∈ (cs.dropWhile isBlank).head?, isBlank c = false := by
  intro c hc
  have hhead := List.head?_dropWhile_not isBlank cs
  rw [Option.mem_def.mp hc] at hhead
  simpa using hhead

theorem bare_of_visible {cs : List Char} (h : ∀ c ∈ cs, isBlank c = false) : Bare cs where
  head c hc := h c (List.mem_of_mem_head? hc)
  last c hc := h c (List.mem_of_mem_getLast? hc)

/-- Trimming drops blanks in front of a bare text and behind it, and nothing else. -/
theorem trim_between (front back : List Char) {cs : List Char} (hcs : Bare cs)
    (hfront : ∀ c ∈ front, isBlank c = true) (hback : ∀ c ∈ back, isBlank c = true) :
    trim (.ofList (front ++ cs ++ back)) = .ofList cs := by
  have hlast : ∀ c ∈ cs.reverse.head?, isBlank c = false := by
    rw [List.head?_reverse]
    exact hcs.last
  have hdrop : (cs ++ back).dropWhile isBlank = if cs = [] then [] else cs ++ back := by
    split
    · rename_i hempty
      rw [hempty, List.nil_append, List.dropWhile_eq_nil_iff]
      exact hback
    · rename_i hne
      apply dropWhile_of_head
      rw [List.head?_append_of_ne_nil _ hne]
      exact hcs.head
  rw [trim, String.toList_ofList, List.append_assoc, List.dropWhile_append_of_pos hfront, hdrop]
  split
  · rename_i hempty
    rw [hempty]
    rfl
  · rw [List.reverse_append, List.dropWhile_append_of_pos (by simpa using hback),
      dropWhile_of_head hlast, List.reverse_reverse]

theorem bare_trim (s : String) : Bare (trim s).toList := by
  rw [trim, String.toList_ofList]
  constructor
  · obtain ⟨cs, hcs⟩ : ∃ cs, cs = s.toList.dropWhile isBlank := ⟨_, rfl⟩
    have hhead := head_dropWhile s.toList
    rw [← hcs] at hhead ⊢
    have hprefix : (cs.reverse.dropWhile isBlank).reverse <+: cs := by
      rw [← List.reverse_suffix, List.reverse_reverse]
      exact List.dropWhile_suffix _
    obtain ⟨back, hback⟩ := hprefix
    intro c hc
    apply hhead
    rw [← hback]
    exact List.mem_head?_append_of_mem_head? hc
  · rw [List.getLast?_reverse]
    exact head_dropWhile _

end Text

namespace CommandLine

/-! ## The sign -/

theorem splitSign?_cons {c : Char} (h : c ≠ '=') (cs : List Char) :
    splitSign? (c :: cs) = (splitSign? cs).map fun (before, after) => (c :: before, after) := by
  rw [splitSign?]
  exact fun heq => h heq

theorem splitSign?_eq_some {cs before after : List Char} (h : splitSign? cs = some (before, after)) :
    '=' ∉ before := by
  induction cs generalizing before with
  | nil => cases h
  | cons c cs ih =>
    by_cases hc : c = '='
    · subst hc
      cases h
      exact List.not_mem_nil
    · rw [splitSign?_cons hc] at h
      obtain ⟨⟨front, back⟩, hrest, heq⟩ := Option.map_eq_some_iff.mp h
      cases heq
      rw [List.mem_cons, not_or]
      exact ⟨Ne.symm hc, ih hrest⟩

theorem splitSign?_append {before : List Char} (h : '=' ∉ before) (after : List Char) :
    splitSign? (before ++ '=' :: after) = some (before, after) := by
  induction before with
  | nil => rfl
  | cons c cs ih =>
    rw [List.mem_cons, not_or] at h
    rw [List.cons_append, splitSign?_cons (Ne.symm h.1), ih h.2]
    rfl

/-! ## Names and values -/

/-- What a binding can name: a text without blanks at its ends and without a sign. -/
structure Bindable (name : String) : Prop where
  bare : Text.Bare name.toList
  noSign : '=' ∉ name.toList

theorem bindable_of_readBinding {raw name : String} {x : Float}
    (h : readBinding raw = .ok (name, x)) : Bindable name := by
  rw [readBinding] at h
  split at h
  · cases h
  · rename_i before after hsplit
    simp only at h
    split at h
    · cases h
      refine ⟨Text.bare_trim _, fun hsign => splitSign?_eq_some hsplit ?_⟩
      rw [Text.trim, String.toList_ofList, String.toList_ofList, List.mem_reverse] at hsign
      have hmem := (List.dropWhile_sublist _).mem hsign
      rw [List.mem_reverse] at hmem
      exact (List.dropWhile_sublist _).mem hmem
    · cases h

theorem bindable_of_isName {name : String} (h : isName name = true) : Bindable name where
  bare := Text.bare_of_visible fun c hc => isBlank_of_isNameChar (isNameChar_of_isName h c hc)
  noSign hsign := absurd (isNameChar_of_isName h _ hsign) (by decide)

theorem blank_space : ∀ c ∈ [' '], Text.isBlank c = true := by
  intro c hc
  rw [List.mem_singleton.mp hc]
  rfl

/-- **A binding is read back** if it is written with blanks around the sign, as the list of variables
shows it. -/
theorem readBinding_spaced {name : String} (h : Bindable name) (x : Float) :
    readBinding (name ++ " = " ++ Decimal.floatText x) = .ok (name, x) := by
  have hchars : (name ++ " = " ++ Decimal.floatText x).toList =
      (name.toList ++ [' ']) ++ '=' :: ' ' :: (Decimal.floatText x).toList := by
    simp
  have hsign : '=' ∉ name.toList ++ [' '] := by
    simpa using h.noSign
  have hname : Text.trim (.ofList (name.toList ++ [' '])) = name := by
    have htrim := Text.trim_between [] [' '] h.bare (by simp) blank_space
    rwa [List.nil_append, String.ofList_toList] at htrim
  have hvalue : Text.trim (.ofList (' ' :: (Decimal.floatText x).toList)) = Decimal.floatText x := by
    have htrim := Text.trim_between [' '] []
      (Text.bare_of_visible (isBlank_of_mem_floatText x)) blank_space (by simp)
    rwa [List.append_nil, String.ofList_toList] at htrim
  rw [readBinding, hchars, splitSign?_append hsign]
  simp only [hvalue, Decimal.readSigned?_floatText, hname]

end CommandLine
end FormulaLang
