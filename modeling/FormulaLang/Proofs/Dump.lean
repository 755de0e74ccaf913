import FormulaLang.Proofs.ByteOrder
import FormulaLang.Proofs.Locality
import FormulaLang.Proofs.Rebinding
import FormulaLang.Proofs.RoundTrip

/-!
# FormulaLang.Proofs.Dump

The list of variables that the program prints at the end. Three kinds of names get there: those the
arguments bind, which have been trimmed and end before the first `=`; those the formula assigns to,
and the loop counters, which are names to the scanner. So all of them can be bound again
(`bindable_of_run`), and the list can be fed back (`dump_restores`).
-/

namespace FormulaLang
namespace CommandLine

/-! ## Names behind a run -/

theorem isName_counterName (depth : Nat) : isName (counterName depth) = true := by
  rw [counterName]
  split
  · rfl
  · have hdigit : ∀ c ∈ depth.repr.toList, isNameChar c = true := by
      intro c hc
      rw [Nat.repr, String.toList_ofList] at hc
      simp [isNameChar, Char.isAlphanum, Decimal.isDigit_of_mem_toDigits hc]
    refine Item.isName_iff.mpr ⟨'i', ['t', 'e', 'r'] ++ depth.repr.toList, ?_, rfl, ?_⟩
    · rw [String.toList_append]
      rfl
    · exact List.forall_mem_append.mpr ⟨List.all_eq_true.mp rfl, hdigit⟩

open Evaluation in
theorem bindable_of_mayWrite {source : String} {p : Program} (h : Program.parse source = .ok p)
    {depth : Nat} {name : String} (hname : MayWrite p.nodes p.levels depth name) :
    Bindable name := by
  rcases hname with ⟨value, hnode⟩ | ⟨k, -, rfl⟩
  · have hnamed := (Grammar.written_of_parse h _ hnode).named
    exact bindable_of_isName (Expr.named_assign.mp hnamed)
  · exact bindable_of_isName (isName_counterName _)

theorem bindable_of_variables {arguments : List String} {o : Options}
    (h : Options.read arguments = .ok o) {name : String} (hname : o.variables.get? name ≠ none) :
    Bindable name := by
  obtain hempty | ⟨x, hmem⟩ := Table.mem_of_foldl_insert hname
  · exact absurd (Table.get?_empty name) hempty
  · exact bindable_of_read h _ (List.mem_reverse.mp hmem)

open Evaluation in
theorem bindable_of_run {arguments : List String} {o : Options} {source : String} {p : Program}
    {r : Except EvalError Float} {s : State Unit} (hread : Options.read arguments = .ok o)
    (hparse : Program.parse source = .ok p)
    (hrun : p.run (∅ : Registry Unit) (.start o.variables ()) = some (r, s)) :
    ∀ e ∈ s.variables.toList, Bindable e.1 := by
  rintro ⟨name, x⟩ he
  by_cases hname : MayWrite p.nodes p.levels 0 name
  · exact bindable_of_mayWrite hparse hname
  · have hsame := (statements_write_only hrun).same name hname
    apply bindable_of_variables hread
    show (State.start o.variables ()).get? name ≠ none
    rw [← hsame]
    have hget : s.get? name = some x := Table.mem_toList_iff.mp he
    rw [hget]
    exact Option.some_ne_none x

/-! ## The list of variables -/

theorem runSource_of_code_zero {o : Options} {source : String}
    (h : (o.runSource source).code = 0) :
    ∃ p x s, Program.parse source = .ok p ∧
      p.run (∅ : Registry Unit) (.start o.variables ()) = some (.ok x, s) ∧
      (o.runSource source).stdout = (if o.showTree then line p.render else "") ++
        line (Decimal.floatText x) ++ (if o.dumpVariables then dump s.variables else "") := by
  rw [Options.runSource] at h ⊢
  split at h
  · cases h
  · rename_i p hparse
    simp only at h ⊢
    split at h
    · cases h
    · cases h
    · rename_i x s hrun
      exact ⟨p, x, s, hparse, hrun, rfl⟩

theorem respond_of_code_zero {arguments : List String} {readFile : String → Option String}
    {o : Options} (hread : Options.read arguments = .ok o)
    (hcode : (respond arguments readFile).code = 0) :
    ∃ source p x s, (if o.fromFile then readFile o.formula else some o.formula) = some source ∧
      Program.parse source = .ok p ∧
      p.run (∅ : Registry Unit) (.start o.variables ()) = some (.ok x, s) ∧
      (respond arguments readFile).stdout = (if o.showTree then line p.render else "") ++
        line (Decimal.floatText x) ++ (if o.dumpVariables then dump s.variables else "") := by
  have hrespond : respond arguments readFile = o.report (readFile o.formula) := by
    rw [respond, hread]
  rw [hrespond] at hcode ⊢
  have hsource : ∃ source, (if o.fromFile then readFile o.formula else some o.formula) =
      some source ∧ o.report (readFile o.formula) = o.runSource source := by
    unfold Options.report at hcode ⊢
    by_cases hfile : o.fromFile = true
    · rw [if_pos hfile] at hcode ⊢
      split at hcode
      · rename_i source hcontent
        exact ⟨source, hcontent, if_pos hfile⟩
      · cases hcode
    · exact ⟨o.formula, if_neg hfile, if_neg hfile⟩
  obtain ⟨source, hcontent, hreport⟩ := hsource
  rw [hreport] at hcode ⊢
  obtain ⟨p, x, s, hrun⟩ := runSource_of_code_zero hcode
  exact ⟨source, p, x, s, hcontent, hrun⟩

/-- **The list of variables can be fed back.** A run that ends well and lists its variables prints
behind its value one entry for each of them, in ascending order of the bytes of their names. Each
entry is read as a binding of that name to that value, so binding them all restores the variables.
The names given on the command line may be any. -/
theorem dump_restores {arguments : List String} {readFile : String → Option String} {o : Options}
    (hread : Options.read arguments = .ok o) (hdump : o.dumpVariables = true)
    (hcode : (respond arguments readFile).code = 0) :
    ∃ source p x s, (if o.fromFile then readFile o.formula else some o.formula) = some source ∧
      Program.parse source = .ok p ∧
      p.run (∅ : Registry Unit) (.start o.variables ()) = some (.ok x, s) ∧
      (respond arguments readFile).stdout = (if o.showTree then line p.render else "") ++
        line (Decimal.floatText x) ++
        String.join (s.variables.toList.map fun e => line (dumpEntry e.1 e.2)) ∧
      (∀ name y, (name, y) ∈ s.variables.toList ↔ s.get? name = some y) ∧
      (s.variables.toList.Pairwise fun a b => Text.utf8Bytes a.1 < Text.utf8Bytes b.1) ∧
      (∀ e ∈ s.variables.toList, readBinding (dumpEntry e.1 e.2) = .ok e) ∧
      ∀ formula, ∃ o', Options.read (s.variables.toList.map rebinding ++ ["--", formula]) = .ok o' ∧
        o'.formula = formula ∧ o'.variables = s.variables := by
  obtain ⟨source, p, x, s, hsource, hparse, hrun, hstdout⟩ := respond_of_code_zero hread hcode
  have hnames := bindable_of_run hread hparse hrun
  rw [if_pos hdump] at hstdout
  exact ⟨source, p, x, s, hsource, hparse, hrun, hstdout, fun _ _ => Table.mem_toList_iff,
    s.variables.sorted.imp Text.utf8Bytes_lt, fun e he => readBinding_spaced (hnames e he) e.2,
    fun formula => read_rebindings hnames formula⟩

/-- A variable that is not a number, and one with a name of two words. -/
theorem dump_restores_words :
    (respond ["--dump-vars", "-v", "x=NaN", "-v= two words =-inf", "y = x"] fun _ => none).code = 0 ∧
    ∃ (p : Program) (x : Float) (s : State Unit), Program.parse "y = x" = .ok p ∧
      p.run ∅ (.start (.ofList [("x", 0.0 / 0.0), ("two words", -(1.0 / 0.0))]) ()) =
        some (.ok x, s) ∧
      (∀ e ∈ s.variables.toList, readBinding (dumpEntry e.1 e.2) = .ok e) ∧
      ∃ o, Options.read (s.variables.toList.map rebinding ++ ["--", "y"]) = .ok o ∧
        o.formula = "y" ∧ o.variables = s.variables := by
  have hread : Options.read ["--dump-vars", "-v", "x=NaN", "-v= two words =-inf", "y = x"] =
      .ok ⟨false, false, true, [("two words", -(1.0 / 0.0)), ("x", 0.0 / 0.0)], "y = x"⟩ := rfl
  have hparse : Program.parse "y = x" = .ok [.assign "y" (.var "x")] := by cbv
  have hcode : (respond ["--dump-vars", "-v", "x=NaN", "-v= two words =-inf", "y = x"]
      fun _ => none).code = 0 := by
    rw [respond, hread]
    simp only [Options.report, Options.runSource, hparse]
    rfl
  obtain ⟨_, p, x, s, ⟨⟩, hp, hrun, -, -, -, hback, hrebind⟩ := dump_restores hread rfl hcode
  exact ⟨hcode, p, x, s, hp, hrun, hback, hrebind "y"⟩

end CommandLine
end FormulaLang
