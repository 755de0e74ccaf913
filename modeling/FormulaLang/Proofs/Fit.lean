import FormulaLang.Proofs.ParseCorrect
import FormulaLang.Proofs.Rescan

/-!
# FormulaLang.Proofs.Fit

Trees that fit the grammar, and what their rendered text is read as. A node is `Fit` if it is no
negative number and has no assignment for an operand; it is `Written` if moreover it is spelt as the
scanner wants it. `parse_render_reread` reads the text of a tree of such nodes: the tree comes back,
but for infinite numbers, whose text is that of a variable (`Expr.reread`).
-/

namespace FormulaLang

mutual

/-- The tree with each infinite number replaced by the variable that its text spells. -/
def Expr.reread : Expr → Expr
  | .num x => if x.isFinite then .num x else .var "inf"
  | .var name => .var name
  | .assign name value => .assign name value.reread
  | .binary op left right => .binary op left.reread right.reread
  | .call name es => .call name (Expr.rereadAll es)
  | .quote p => .quote (Expr.rereadAll p)

def Expr.rereadAll : List Expr → List Expr
  | [] => []
  | e :: es => e.reread :: Expr.rereadAll es

end

namespace Grammar

open FormulaLang.Expr Token

/-- The node is no number below zero, nor a negative zero, and no operand of it is an assignment. -/
def Fit (n : Expr) : Prop :=
  (∀ x, n = .num x → Binary64.isNegative x = false) ∧ ∀ c ∈ n.operands, c.isAssign = false

/-- The node is no number, or one that denotes a number. -/
def Numeric (n : Expr) : Prop := ∀ x, n = .num x → x.isNaN = false

@[simp] theorem fit_num {x : Float} : Fit (.num x) ↔ Binary64.isNegative x = false := by
  simp [Fit, operands]

@[simp] theorem fit_var {name : String} : Fit (.var name) := by simp [Fit, operands]

@[simp] theorem fit_assign {name : String} {value : Expr} :
    Fit (.assign name value) ↔ value.isAssign = false := by
  simp [Fit, operands]

@[simp] theorem fit_binary {op : Operator} {left right : Expr} :
    Fit (.binary op left right) ↔ left.isAssign = false ∧ right.isAssign = false := by
  simp [Fit, operands]

@[simp] theorem fit_call {name : String} {es : List Expr} : Fit (.call name es) := by
  simp [Fit, operands]

@[simp] theorem fit_quote {p : Program} : Fit (.quote p) := by simp [Fit, operands]

@[simp] theorem numeric_num {x : Float} : Numeric (.num x) ↔ x.isNaN = false := by
  simp [Numeric]

/-! ## Deriving a tree from its tokens -/

/-- The node can stand in a program that was read: its names are names, it is no quote around
quotes, it denotes a number if it is one, and it is fit. -/
structure Written (n : Expr) : Prop where
  named : Named n
  unnested : Unnested n
  numeric : Numeric n
  fit : Fit n

theorem everywhere_mono {P Q : Expr → Prop} (h : ∀ n, P n → Q n) {e : Expr}
    (he : Everywhere P e) : Everywhere Q e :=
  fun n hn => h n (he n hn)

theorem number_of_magnitude {x : Float} (hsign : Binary64.isNegative x = false)
    (hfinite : x.isFinite = true) :
    Primary [.number (Decimal.magnitudeText (Binary64.magnitude x))] (.num x) := by
  obtain ⟨hnumeral, hword⟩ :=
    Decimal.numeral_magnitudeText (Binary64.isFinite_iff.mp hfinite)
  have hvalue : (Decimal.numeral
      (Decimal.magnitudeText (Binary64.magnitude x)).toList).toFloat = x := by
    have hx := Binary64.ofWord_magnitude x
    rw [hsign] at hx
    rw [Decimal.toFloat, hword, hx]
  have hprimary := Primary.number hnumeral
  rwa [hvalue] at hprimary

theorem primary_floatTokens {x : Float} (hx : x.isNaN = false)
    (hsign : Binary64.isNegative x = false) : Primary (floatTokens x) (Expr.num x).reread := by
  rw [floatTokens, if_neg (Bool.eq_false_iff.mp hx), if_neg (Bool.eq_false_iff.mp hsign),
    magnitudeToken, Expr.reread]
  by_cases hfinite : x.isFinite = true
  · rw [if_neg (Nat.ne_of_lt (Binary64.isFinite_iff.mp hfinite)), if_pos hfinite]
    exact number_of_magnitude hsign hfinite
  · rw [if_pos (Binary64.magnitude_of_not_finite hx hfinite), if_neg hfinite]
    exact .variable

theorem Primary.derives {tokens : List Token} {e : Expr} (h : Primary tokens e) (P : Prop) :
    (P → Primary tokens e) ∧ Statement tokens e :=
  ⟨fun _ => h, .expression (h.chain _)⟩

/-- Changes the numbers of a tree and nothing else. -/
structure Renumbers (f : Expr → Expr) : Prop where
  var : ∀ name, f (.var name) = .var name
  assign : ∀ name value, f (.assign name value) = .assign name (f value)
  binary : ∀ op left right, f (.binary op left right) = .binary op (f left) (f right)
  call : ∀ name es, f (.call name es) = .call name (es.map f)
  quote : ∀ p, f (.quote p) = .quote (p.map f)

section Spelt

variable {num : Float → List Token} {f : Expr → Expr}

theorem scan_text (hnum : SpellsNumbers num) {p : Program} (h : EverywhereIn Written p) :
    Item.scan (spell (Expr.speltAll num .semicolon p)) =
      (Expr.speltAll num .semicolon p).map .token := by
  have hn := everywhereIn_mono (fun _ => Written.named) h
  have hu := everywhereIn_mono (fun _ => Written.unnested) h
  have hscan := scan_speltAll hnum separator_semicolon hn hu ends_nil
  rwa [List.append_nil, Item.scan_nil, List.append_nil] at hscan

mutual

/-- A tree is derived from its tokens, with what each of its numbers is derived as. -/
theorem derives_spelt (hnum : SpellsNumbers num) (hf : Renumbers f)
    (hx : ∀ x, x.isNaN = false → Binary64.isNegative x = false → Primary (num x) (f (.num x))) :
    ∀ {e : Expr}, Everywhere Written e →
      (e.isAssign = false → Primary (e.spelt num) (f e)) ∧ Statement (e.spelt num) (f e)
  | .num x, h => by
    simp only [everywhere_num] at h
    exact (hx x (numeric_num.mp h.numeric) (fit_num.mp h.fit)).derives _
  | .var name, _ => by
    rw [hf.var]
    exact Primary.variable.derives _
  | .assign name value, h => by
    simp only [everywhere_assign] at h
    have hvalue := (derives_spelt hnum hf hx h.2).1 (fit_assign.mp h.1.fit)
    rw [hf.assign]
    exact ⟨nofun, .assign (hvalue.chain _)⟩
  | .binary op left right, h => by
    simp only [everywhere_binary] at h
    obtain ⟨hl, hr⟩ := fit_binary.mp h.1.fit
    have hchain : Chain loosestLevel _ (.binary op (f left) (f right)) :=
      .binary ((derives_spelt hnum hf hx h.2.1).1 hl) ((derives_spelt hnum hf hx h.2.2).1 hr)
    have hgroup := Primary.group hchain
    rw [List.append_assoc, List.cons_append] at hgroup
    rw [hf.binary]
    exact hgroup.derives _
  | .call name es, h => by
    simp only [everywhere_call] at h
    rw [hf.call]
    by_cases hes : es = []
    · subst hes
      exact Primary.callEmpty.derives _
    · exact (Primary.call ((derives_speltAll hnum hf hx h.2).1 hes)).derives _
  | .quote p, h => by
    simp only [everywhere_quote] at h
    rw [hf.quote]
    refine (Primary.quoted ?_ (derives_speltAll hnum hf hx h.2).2).derives _
    rw [String.toList_ofList, scan_text hnum h.2]

theorem derives_speltAll (hnum : SpellsNumbers num) (hf : Renumbers f)
    (hx : ∀ x, x.isNaN = false → Binary64.isNegative x = false → Primary (num x) (f (.num x))) :
    ∀ {es : List Expr}, EverywhereIn Written es →
      (es ≠ [] → Arguments (Expr.speltAll num .comma es) (es.map f)) ∧
        Statements (Expr.speltAll num .semicolon es) (es.map f)
  | [], _ => ⟨fun hne => absurd rfl hne, .empty⟩
  | [e], h => by
    have hhead := (derives_spelt hnum hf hx (everywhereIn_cons.mp h).1).2
    exact ⟨fun _ => .last hhead, .last hhead⟩
  | e :: g :: es, h => by
    have hhead := (derives_spelt hnum hf hx (everywhereIn_cons.mp h).1).2
    have hrest := derives_speltAll hnum hf hx (everywhereIn_cons.mp h).2
    exact ⟨fun _ => .cons hhead (hrest.1 (List.cons_ne_nil g es)), .cons hhead hrest.2⟩

end

end Spelt

theorem rereadAll_eq_map : ∀ es : List Expr, Expr.rereadAll es = es.map Expr.reread
  | [] => rfl
  | _ :: es => congrArg (List.cons _) (rereadAll_eq_map es)

theorem renumbers_reread : Renumbers Expr.reread where
  var _ := rfl
  assign _ _ := rfl
  binary _ _ _ := rfl
  call name es := congrArg (Expr.call name) (rereadAll_eq_map es)
  quote p := congrArg Expr.quote (rereadAll_eq_map p)

/-- The rendered text of a program that can have been read is read again, and where no number is
infinite, as that program. -/
theorem parse_render_reread {p : Program} (h : EverywhereIn Written p) :
    Program.parse p.render = .ok (Expr.rereadAll p) := by
  have hder := (derives_speltAll spellsNumbers_floatTokens renumbers_reread
    (fun _ hx hsign => primary_floatTokens hx hsign) h).2
  rw [parse_eq_ok_iff_derives, strip_render (everywhereIn_mono (fun _ => Written.named) h),
    ← speltAll_floatTokens, scan_text spellsNumbers_floatTokens h, rereadAll_eq_map]
  exact ⟨_, rfl, hder⟩

end Grammar
end FormulaLang
