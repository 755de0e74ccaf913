import FormulaLang.Proofs.Follow

/-!
# FormulaLang.Proofs.RenderCorrect

Rendering never lies about a tree (`parse_render_iff`): the rendered text of a tree, also of one that
no source has, is read as that tree or not at all; and it is read exactly if the tree is fit and has
no quote inside a quote.
-/

namespace FormulaLang
namespace Grammar

open FormulaLang.Expr Token

def Finite (n : Expr) : Prop := ∀ x, n = .num x → x.isFinite = true

@[simp] theorem finite_num {x : Float} : Finite (.num x) ↔ x.isFinite = true := by simp [Finite]

theorem Finite.numeric {n : Expr} (h : Finite n) : Numeric n := by
  intro x hx
  have hfinite := Binary64.isFinite_iff.mp (h x hx)
  rw [Bool.eq_false_iff, ne_eq, Binary64.isNaN_iff]
  omega

mutual

theorem reread_eq_self_iff : ∀ {e : Expr}, e.reread = e ↔ Everywhere Finite e
  | .num x => by
    rw [Expr.reread, everywhere_num, finite_num]
    split
    · simp [*]
    · simp [*]
  | .var name => by
    simp [Expr.reread, Finite]
  | .assign name value => by
    simp [Expr.reread, Finite, reread_eq_self_iff (e := value)]
  | .binary op left right => by
    simp [Expr.reread, Finite, reread_eq_self_iff (e := left), reread_eq_self_iff (e := right)]
  | .call name es => by
    simp [Expr.reread, Finite, @rereadAll_eq_self_iff es]
  | .quote p => by
    simp [Expr.reread, Finite, @rereadAll_eq_self_iff p]

theorem rereadAll_eq_self_iff : ∀ {es : List Expr}, Expr.rereadAll es = es ↔ EverywhereIn Finite es
  | [] => by simp [Expr.rereadAll]
  | e :: es => by
    simp [Expr.rereadAll, reread_eq_self_iff (e := e), @rereadAll_eq_self_iff es]

end

/-- A tree whose rendered text is read at all can have been read. -/
theorem written_of_parse_render {p q : Program} (hn : EverywhereIn Named p)
    (hx : EverywhereIn Numeric p) (h : Program.parse p.render = .ok q) : EverywhereIn Written p := by
  rw [parse_eq_ok_iff, strip_render hn, ← List.append_nil (spell _)] at h
  obtain ⟨ψ, hψ⟩ := run_of_readProgram h
  obtain ⟨⟨hu, hfit⟩, -⟩ := follow_list separator_semicolon hn hx ends_nil hψ
  intro n hnode
  exact ⟨hn n hnode, hu n hnode, hx n hnode, hfit n hnode⟩

/-- **Rendering never lies.** Where all names are names and all numbers are finite, the rendered text
of a program is read as this program or not at all. It is read exactly if no number has its sign bit
set, no assignment is an operand or an assigned value, and no quote is inside another. -/
theorem parse_render_iff {p : Program} (hnames : ∀ e ∈ p.nodes, ∀ name ∈ e.names, isName name = true)
    (hfinite : ∀ x, .num x ∈ p.nodes → x.isFinite = true) :
    (Program.parse p.render = .ok p ↔
      (∀ x, .num x ∈ p.nodes → Binary64.isNegative x = false) ∧
      (∀ e ∈ p.nodes, ∀ c ∈ e.operands, c.isAssign = false) ∧
      ∀ q, .quote q ∈ p.nodes → ∀ c ∈ Program.nodes q, c.isQuote = false) ∧
    ∀ q, Program.parse p.render = .ok q → q = p := by
  have hf : EverywhereIn Finite p := by
    intro n hn x hx
    subst hx
    exact hfinite x hn
  have hx : EverywhereIn Numeric p := everywhereIn_mono (fun _ => Finite.numeric) hf
  refine ⟨⟨?_, ?_⟩, ?_⟩
  · intro h
    have hwritten := written_of_parse_render hnames hx h
    refine ⟨?_, ?_, ?_⟩
    · intro x hnode
      exact (hwritten _ hnode).fit.1 x rfl
    · intro e hnode
      exact (hwritten e hnode).fit.2
    · intro q hnode
      exact (hwritten _ hnode).unnested q rfl
  · rintro ⟨hsign, hplace, hquote⟩
    have hwritten : EverywhereIn Written p := by
      intro n hnode
      refine ⟨hnames n hnode, ?_, hx n hnode, ?_, hplace n hnode⟩
      · intro q hq
        subst hq
        exact hquote q hnode
      · intro x hnum
        subst hnum
        exact hsign x hnode
    rw [parse_render_reread hwritten, rereadAll_eq_self_iff.mpr hf]
  · intro q h
    have hread := parse_render_reread (written_of_parse_render hnames hx h)
    rw [rereadAll_eq_self_iff.mpr hf, h] at hread
    cases hread
    rfl

theorem parse_render_iff_sum :
    Program.parse (Program.render [.binary .add (.var "a") (.num 2.0)]) =
      .ok [.binary .add (.var "a") (.num 2.0)] := by
  have hnodes : Program.nodes [.binary .add (.var "a") (.num 2.0)] =
      [.binary .add (.var "a") (.num 2.0), .var "a", .num 2.0] := rfl
  have hnames : isName "a" = true := rfl
  have hfinite : Float.isFinite 2.0 = true := rfl
  have hsign : Binary64.isNegative 2.0 = false := rfl
  refine (parse_render_iff ?_ ?_).1.mpr ⟨?_, ?_, ?_⟩
  · simp [hnodes, names, hnames]
  · simp [hnodes, hfinite]
  · simp [hnodes, hsign]
  · simp [hnodes, operands, isAssign]
  · simp [hnodes]

end Grammar
end FormulaLang
