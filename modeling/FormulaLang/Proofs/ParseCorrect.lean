import FormulaLang.Program.Cursor
import FormulaLang.Proofs.ReadComplete
import FormulaLang.Proofs.ReadSound

/-!
# FormulaLang.Proofs.ParseCorrect

Parsing decides the grammar: a text has a tree exactly if its items are all tokens and these
derive the tree (`parse_iff_derives`). Since the reader is a function, no list of tokens derives
two trees (`Statements.unique`).
-/

namespace FormulaLang
namespace Grammar

open Item Program

theorem readProgram_eq_ok_iff {items : List Item} {p : Program} :
    readProgram items = .ok p ↔ ∃ tokens, items = tokens.map .token ∧ Statements tokens p := by
  constructor
  · exact readProgram_sound items
  · rintro ⟨tokens, rfl, hder⟩
    exact hder.read

theorem Statements.unique {tokens : List Token} {p q : Program} (hp : Statements tokens p)
    (hq : Statements tokens q) : p = q := by
  have hread := hp.read
  rw [hq.read] at hread
  cases hread
  rfl

theorem parse_eq_ok_iff {s : String} {p : Program} :
    Program.parse s = .ok p ↔ readProgram (scan (Text.strip s).toList) = .ok p := by
  simp only [Program.parse, Cursor.program, Cursor.ofText]
  cases readProgram (scan (Text.strip s).toList) with
  | error f => simp [Cursor.conclude]
  | ok q => simp [Cursor.conclude]

theorem parse_eq_error_iff {s : String} {e : ParseError} :
    Program.parse s = .error e ↔ ∃ f, readProgram (scan (Text.strip s).toList) = .error f ∧
      e = ⟨f.cause, f.position (scan (Text.strip s).toList)⟩ := by
  simp only [Program.parse, Cursor.program, Cursor.ofText]
  cases readProgram (scan (Text.strip s).toList) with
  | error f => simp [Cursor.conclude, eq_comm]
  | ok q => simp [Cursor.conclude]

theorem parse_eq_ok_iff_derives {s : String} {p : Program} :
    Program.parse s = .ok p ↔
      ∃ tokens, scan (Text.strip s).toList = tokens.map .token ∧ Statements tokens p := by
  rw [parse_eq_ok_iff, readProgram_eq_ok_iff]

/-- **Parsing is sound and complete for the grammar**, and the grammar is unambiguous. -/
theorem parse_iff_derives :
    (∀ (s : String) (p : Program), Program.parse s = .ok p ↔
      ∃ tokens, scan (Text.strip s).toList = tokens.map .token ∧ Statements tokens p) ∧
    ∀ (tokens : List Token) (p q : Program),
      Statements tokens p → Statements tokens q → p = q := by
  constructor
  · intro s p
    exact parse_eq_ok_iff_derives
  · intro tokens p q hp hq
    exact hp.unique hq

/-- Operators of all levels, and comparisons in a row. -/
theorem parse_iff_derives_levels :
    Program.parse " f(x = a) ^ \"b;\" % c - d * e >= g == h " =
      .ok [.binary .eq
        (.binary .ge
          (.binary .sub
            (.binary .rem
              (.binary .pow (.call "f" [.assign "x" (.var "a")]) (.quote [.var "b"])) (.var "c"))
            (.binary .mul (.var "d") (.var "e")))
          (.var "g"))
        (.var "h")] := by
  have hname (name : String) : Primary [.identifier name] (.var name) := .variable
  have hcall : Primary _ (.call "f" [.assign "x" (.var "a")]) :=
    .call (.last (.assign ((hname "a").chain 4)))
  have hpayload : Statements [.identifier "b", .semicolon] [.var "b"] :=
    .cons (.expression ((hname "b").chain 4)) .empty
  have hquoted : Primary [.quoted "b;"] (.quote [.var "b"]) := .quoted (by cbv) hpayload
  have hpower := Chain.apply (show .pow ∈ operatorsOf 1 by decide) (hcall.chain 1) (hquoted.chain 0)
  have hrem := Chain.apply (show .rem ∈ operatorsOf 2 by decide) (.single hpower)
    ((hname "c").chain 1)
  have hmul := Chain.apply (show .mul ∈ operatorsOf 2 by decide) ((hname "d").chain 2)
    ((hname "e").chain 1)
  have hsub := Chain.apply (show .sub ∈ operatorsOf 3 by decide) (.single hrem) hmul
  have hge := Chain.apply (show .ge ∈ operatorsOf 4 by decide) (.single hsub) ((hname "g").chain 3)
  have heq := Chain.apply (show .eq ∈ operatorsOf 4 by decide) hge ((hname "h").chain 3)
  refine (parse_iff_derives.1 _ _).mpr ⟨_, ?_, .last (.expression heq)⟩
  cbv

end Grammar
end FormulaLang
