import FormulaLang.Proofs.ErrorPosition
import FormulaLang.Proofs.ReadComplete
import FormulaLang.Proofs.RunSound

/-!
# FormulaLang.Proofs.Batch

Formulas put together with `;`. Where the first is a program with no `;` at its end, nothing in it
reaches across the mark: the items are those of the two texts (`scan_batch`), so the programs are
joined, and an error in the second text stays the same but for its position (`readProgram_batch`).
Statements run one after another, so the joined program runs as the second one after the first
(`evalStatements_append`). Main statement: `evaluate_batch`.
-/

namespace FormulaLang

open Item Program Token

/-! ## Texts -/

theorem Item.scan_batch {cs : List Char} {ts : List Token} (h : scan cs = ts.map .token)
    (cs' : List Char) :
    scan (cs ++ ';' :: cs') = ts.map .token ++ .token .semicolon :: scan cs' := by
  have hmark : scan (';' :: cs') = .token .semicolon :: scan cs' :=
    scan_token (t := .semicolon) trivial fun _ _ => rfl
  rw [scan_append h (free_cons rfl rfl (by decide) cs'), hmark]

namespace Grammar

theorem ne_nil_of_getLast {ts us : List Token}
    (hlast : (ts ++ .semicolon :: us).getLast? ≠ some .semicolon) : us ≠ [] := by
  rintro rfl
  simp at hlast

/-- A program with no `;` at its end is read up to a `;` behind it, and then the rest is read. -/
theorem readProgram_batch {ts : List Token} {p : Program} (hder : Statements ts p)
    (hne : p ≠ []) (hlast : ts.getLast? ≠ some .semicolon) (items : List Item) :
    readProgram (ts.map .token ++ .token .semicolon :: items) =
      (readProgram items).map (p ++ ·) := by
  induction p generalizing ts with
  | nil => exact absurd rfl hne
  | cons e es ih =>
    cases hder with
    | last h =>
      rw [readProgram_eq (by simp), h.read closes_semicolon]
      dsimp only
      cases readProgram items <;> rfl
    | @cons ts us _ _ h hs =>
      have hus : us ≠ [] := ne_nil_of_getLast hlast
      have hes : es ≠ [] := by
        rintro rfl
        cases hs
        exact hus rfl
      have hlast' : us.getLast? ≠ some .semicolon := by
        rwa [List.getLast?_append_of_ne_nil _ (List.cons_ne_nil _ _),
          List.getLast?_cons_of_ne_nil hus] at hlast
      rw [List.map_append, List.map_cons, List.append_assoc, List.cons_append,
        readProgram_eq (by simp), h.read closes_semicolon]
      simp only [ih hs hes hlast']
      cases readProgram items <;> rfl

theorem getLast_of_text {s : String} {ts : List Token}
    (hscan : scan (Text.strip s).toList = ts.map .token)
    (hend : (Text.strip s).toList.getLast? ≠ some ';') : ts.getLast? ≠ some .semicolon := by
  intro hlast
  obtain ⟨us, rfl⟩ := List.getLast?_eq_some_iff.mp hlast
  apply hend
  rw [← text_scan (Text.strip s).toList, hscan]
  simp [Item.text, Token.text]

theorem position_behind {items : List Item} {f : Failure} (h : readProgram items = .error f)
    (front : List Item) : f.position (front ++ items) = totalSize front + f.position items := by
  obtain ⟨-, front', -, rfl, -⟩ := readProgram_fails items h
  rw [← List.append_assoc, position_append rfl, position_append rfl, totalSize_append,
    Nat.add_assoc]

end Grammar

/-! ## Runs -/

namespace Evaluation

variable {σ : Type}

theorem evalStatements_append (ev : Evaluator σ) {p q : Program} (hp : p ≠ []) (hq : q ≠ [])
    (s : State σ) : evalStatements ev (p ++ q) s =
      andThen (evalStatements ev p s) fun _ t => evalStatements ev q t := by
  match p with
  | [] => exact absurd rfl hp
  | [e] =>
    obtain ⟨f, es, rfl⟩ := List.exists_cons_of_ne_nil hq
    rfl
  | e :: f :: es =>
    have ih := fun t => evalStatements_append ev (List.cons_ne_nil f es) hq t
    simp only [List.cons_append] at ih ⊢
    simp only [evalStatements, ih, andThen_assoc]

theorem run_append (functions : Registry σ) {p q : Program} (hp : p ≠ []) (hq : q ≠ [])
    (s : State σ) : (p ++ q).run functions s =
      andThen (p.run functions s) fun _ t => q.run functions t :=
  evalStatements_append (eval functions ample) hp hq s

theorem run_depth_eq {functions : Registry σ} {p : Program} {o : Except EvalError Float}
    {s t : State σ} (h : p.run functions s = some (o, t)) : t.depth = s.depth :=
  (evalStatements_sound (eval_sound functions ample) h).depth_eq

theorem evaluate_of_parse {source : String} {p : Program} (h : parse source = .ok p)
    (functions : Registry σ) (s : State σ) :
    evaluate functions source s =
      (p.run functions s).map fun r => (r.1.mapError FormulaError.eval, r.2) := by
  simp only [evaluate, h]
  cases p.run functions s with
  | none => rfl
  | some r =>
    obtain ⟨err | x, t⟩ := r
    · rfl
    · rfl

end Evaluation

open Grammar Evaluation

/-- What two runs lead to, the second of which starts where the first has ended, unless that
failed. -/
def followedBy {σ : Type} (first : Option (Except FormulaError Float × State σ))
    (second : State σ → Option (Except FormulaError Float × State σ)) :
    Option (Except FormulaError Float × State σ) :=
  match first with
  | none => none
  | some (.error err, t) => some (.error err, t)
  | some (.ok _, t) => second t

/-- A batch of two formulas, the first of which is a program with no `;` at its end, is parsed as
the second formula behind the first, and run as the second one after the first. Both runs are at
the same depth. -/
theorem evaluate_batch {s₁ : String} {p₁ : Program} (h₁ : parse s₁ = .ok p₁) (hne : p₁ ≠ [])
    (hend : (Text.strip s₁).toList.getLast? ≠ some ';') (s₂ : String) :
    (∀ p₂, parse s₂ = .ok p₂ → parse (s₁ ++ ";" ++ s₂) = .ok (p₁ ++ p₂)) ∧
    (∀ e, parse s₂ = .error e →
      parse (s₁ ++ ";" ++ s₂) = .error (e.shift ((Text.strip s₁).utf8ByteSize + 1))) ∧
    ∀ p₂, parse s₂ = .ok p₂ → p₂ ≠ [] → ∀ {σ : Type} (functions : Registry σ) (s : State σ),
      evaluate functions (s₁ ++ ";" ++ s₂) s =
        followedBy (evaluate functions s₁ s) (evaluate functions s₂) ∧
      ∀ o t, evaluate functions s₁ s = some (o, t) → t.depth = s.depth := by
  obtain ⟨ts, hscan₁, hder⟩ := parse_eq_ok_iff_derives.mp h₁
  have hscan : scan (Text.strip (s₁ ++ ";" ++ s₂)).toList =
      ts.map .token ++ .token .semicolon :: scan (Text.strip s₂).toList := by
    have hmark : Text.strip ";" = ";" := by rfl
    rw [Text.strip_append, Text.strip_append, hmark, String.toList_append, String.toList_append,
      List.append_assoc]
    exact scan_batch hscan₁ _
  have hread := readProgram_batch hder hne (getLast_of_text hscan₁ hend)
    (scan (Text.strip s₂).toList)
  rw [← hscan] at hread
  have hok : ∀ p₂, parse s₂ = .ok p₂ → parse (s₁ ++ ";" ++ s₂) = .ok (p₁ ++ p₂) := by
    intro p₂ h₂
    rw [parse_eq_ok_iff] at h₂ ⊢
    rw [hread, h₂]
    rfl
  refine ⟨hok, ?_, ?_⟩
  · intro e h₂
    obtain ⟨f, hf, rfl⟩ := parse_eq_error_iff.mp h₂
    rw [hf] at hread
    refine parse_eq_error_iff.mpr ⟨f, hread, ?_⟩
    have hsize : totalSize (ts.map .token ++ [.token .semicolon]) =
        (Text.strip s₁).utf8ByteSize + 1 := by
      rw [totalSize_append, ← hscan₁, totalSize_scan]
      rfl
    rw [hscan, List.append_cons, position_behind hf, hsize, ParseError.shift, Nat.add_comm]
  · intro p₂ h₂ hne₂ σ functions s
    have hsecond : evaluate functions s₂ =
        fun t => (p₂.run functions t).map fun r => (r.1.mapError FormulaError.eval, r.2) :=
      funext fun t => evaluate_of_parse h₂ functions t
    rw [hsecond, evaluate_of_parse h₁, evaluate_of_parse (hok p₂ h₂), run_append functions hne hne₂]
    constructor
    · cases p₁.run functions s with
      | none => rfl
      | some r =>
        obtain ⟨err | x, t⟩ := r
        · rfl
        · rfl
    · intro o t h
      obtain ⟨⟨o', t'⟩, hrun, heq⟩ := Option.map_eq_some_iff.mp h
      cases heq
      exact run_depth_eq hrun

/-- The `;` in the quote does not count, and the error behind the batch's mark moves. -/
theorem evaluate_batch_quoted :
    parse ("a = \"b;\"" ++ ";" ++ "c)") = .error ⟨.unexpectedToken ")", 8⟩ ∧
    parse ("a = \"b;\"" ++ ";" ++ "a") = .ok [.assign "a" (.quote [.var "b"]), .var "a"] ∧
    ∀ s : State Unit, evaluate .empty ("a = \"b;\"" ++ ";" ++ "a") s =
      followedBy (evaluate .empty "a = \"b;\"" s) (evaluate .empty "a") := by
  have h₁ : parse "a = \"b;\"" = .ok [.assign "a" (.quote [.var "b"])] := by cbv
  have hend : (Text.strip "a = \"b;\"").toList.getLast? ≠ some ';' := by decide +kernel
  have herror : parse "c)" = .error ⟨.unexpectedToken ")", 1⟩ := by cbv
  have hok : parse "a" = .ok [.var "a"] := by cbv
  have hbatch := evaluate_batch h₁ (List.cons_ne_nil _ _) hend
  refine ⟨(hbatch "c)").2.1 _ herror, (hbatch "a").1 _ hok, fun s => ?_⟩
  exact ((hbatch "a").2.2 _ hok (List.cons_ne_nil _ _) .empty s).1

end FormulaLang
