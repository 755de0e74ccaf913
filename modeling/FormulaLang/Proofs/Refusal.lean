import FormulaLang.Proofs.ReadSound

/-!
# FormulaLang.Proofs.Refusal

How the readers fail. A failure is justified (`Failure.Justified`): its cause is true of its first
unread item, or that is a quoted token and the failure is the one that the payload fails with. And
it does not come late: the items in front of it are tokens that can be completed to a phrase of the
kind that was read (`Fails`). The completion needs `Filler` tokens only: an empty quote stands for
an operand that is missing, and parentheses close what is open.
-/

namespace FormulaLang

open Item

/-- What a cause says of the unread items. -/
def ParseError.Cause.Refuses : ParseError.Cause → List Item → Prop
  | .unexpectedCharacter found, items => ∃ rest, items = .bad found :: rest
  | .unexpectedToken found, items => ∃ t rest, items = .token t :: rest ∧ t.text = found
  | .unexpectedEnd, items => items = []
  | .missingClosingParen, items =>
    items = [] ∨ ∃ t rest, items = .token t :: rest ∧ t ≠ .rightParen
  | .expectedComma found, items => ∃ t rest, items = .token t :: rest ∧ t.text = found
  | .invalidNumber literal, items => ∃ rest, items = .token (.number literal) :: rest

namespace Failure

inductive Justified : Failure → Prop where
  | here {cause : ParseError.Cause} {rest : List Item} : cause.Refuses rest →
      Justified ⟨cause, 0, rest⟩
  | inside {payload : String} {g : Failure} {rest : List Item} :
      Program.readProgram (scan payload.toList) = .error g →
      Justified ⟨g.cause, 1 + g.position (scan payload.toList), .token (.quoted payload) :: rest⟩

variable {onToken : Token → ParseError.Cause} {onEnd : ParseError.Cause} {items : List Item}

theorem rest_refuse : (refuse onToken onEnd items).rest = items := by
  unfold refuse
  split <;> rfl

theorem justified_refuse (hend : onEnd.Refuses [])
    (htoken : ∀ t rest, items = .token t :: rest → (onToken t).Refuses items) :
    (refuse onToken onEnd items).Justified := by
  unfold refuse
  split
  · exact .here hend
  · exact .here (htoken _ _ rfl)
  · exact .here ⟨_, rfl⟩

end Failure

namespace Grammar

open Program

def Filler (t : Token) : Prop := t = .quoted "" ∨ t = .rightParen

theorem filler_emptyQuote : ∀ t ∈ [Token.quoted ""], Filler t :=
  fun _ h => .inl (List.mem_singleton.mp h)

theorem filler_rightParen : ∀ t ∈ [Token.rightParen], Filler t :=
  fun _ h => .inr (List.mem_singleton.mp h)

theorem filler_nil : ∀ t ∈ ([] : List Token), Filler t := fun _ h => nomatch h

theorem primary_emptyQuote : Primary [.quoted ""] (.quote []) := by
  have hscan : scan "".toList = ([] : List Token).map .token := by
    rw [String.toList_empty, scan_nil, List.map_nil]
  exact .quoted hscan .empty

/-- The reading of a phrase from `items` rightly ends in the failure. Which tokens make up a
complete phrase is said by `Complete`. -/
def Fails (Complete : List Token → Prop) (items : List Item) (f : Failure) : Prop :=
  f.Justified ∧ ∃ front back : List Token, items = front.map .token ++ f.rest ∧
    (∀ t ∈ back, Filler t) ∧ Complete (front ++ back)

namespace Fails

variable {C D : List Token → Prop} {items : List Item} {f : Failure}

/-- A failure at the first item, where `back` makes up a phrase. -/
theorem first {back : List Token} (hf : f.Justified) (hrest : f.rest = items)
    (hback : ∀ t ∈ back, Filler t) (hcomplete : C back) : Fails C items f :=
  ⟨hf, [], back, hrest.symm, hback, hcomplete⟩

/-- The failure of a part is that of the whole, of which `before` has been read and `after` may
follow. -/
theorem part (h : Fails C items f) (before after : List Token) (hafter : ∀ t ∈ after, Filler t)
    (hwhole : ∀ ts, C ts → D (before ++ ts ++ after)) : Fails D (before.map .token ++ items) f := by
  obtain ⟨hf, front, back, rfl, hback, hcomplete⟩ := h
  refine ⟨hf, before ++ front, back ++ after, by simp, ?_, ?_⟩
  · intro t ht
    rcases List.mem_append.mp ht with ht | ht
    · exact hback t ht
    · exact hafter t ht
  · have hD := hwhole _ hcomplete
    simpa only [List.append_assoc] using hD

/-- The failure of what follows `before`. -/
theorem behind (h : Fails C items f) (before : List Token)
    (hwhole : ∀ ts, C ts → D (before ++ ts)) : Fails D (before.map .token ++ items) f :=
  h.part before [] filler_nil fun ts hts => by simpa using hwhole ts hts

theorem mono (h : Fails C items f) (hwhole : ∀ ts, C ts → D ts) : Fails D items f :=
  h.behind [] hwhole

end Fails

mutual

theorem primary_fails (items : List Item) {f : Failure} (h : primary items = .error f) :
    Fails (fun ts => ∃ e, Primary ts e) items f := by
  have hoperand : ∃ e, Primary [.quoted ""] e := ⟨_, primary_emptyQuote⟩
  rw [primary_eq] at h
  split at h
  · rename_i literal rest
    split at h
    · cases h
    · cases h
      exact .first (.here ⟨rest, rfl⟩) rfl filler_emptyQuote hoperand
  · split at h
    · cases h
    · rename_i g hg
      cases h
      exact .first (.inside hg) rfl filler_emptyQuote hoperand
  · rename_i name after
    split at h
    · rename_i g hargs
      have hw : totalWeight after <
          totalWeight (.token (.identifier name) :: .token .leftParen :: after) :=
        Nat.lt_trans (totalWeight_tail _ _) (totalWeight_tail _ _)
      cases h
      refine (arguments_fails after hargs).behind [.identifier name, .leftParen] ?_
      rintro _ ⟨tokens, es, rfl, hder⟩
      exact ⟨_, .call hder⟩
    · cases h
  · rename_i name slice after
    cases h
    refine ⟨.here ⟨after, rfl⟩, [.identifier name], [], rfl, filler_nil, _, .variable⟩
  · cases h
  · rename_i after
    split at h
    · rename_i g hread
      have hw : totalWeight after < totalWeight (.token .leftParen :: after) :=
        totalWeight_tail _ _
      cases h
      refine (chain_fails loosestLevel after hread).part [.leftParen] [.rightParen]
        filler_rightParen ?_
      rintro _ ⟨e, hder⟩
      exact ⟨e, .group hder⟩
    · rename_i e mid hread
      split at h
      · cases h
      · rename_i hclose
        obtain ⟨tokens, rfl, hder⟩ := chain_sound loosestLevel after hread
        cases h
        have hjust : (Failure.refuse (fun _ => .missingClosingParen) .missingClosingParen
            mid).Justified :=
          Failure.justified_refuse (.inl rfl) fun t rest hmid =>
            .inr ⟨t, rest, hmid, fun ht => hclose rest (by rw [hmid, ht])⟩
        have hfails : Fails (· = [.rightParen]) mid _ :=
          .first hjust Failure.rest_refuse filler_rightParen rfl
        refine hfails.behind (.leftParen :: tokens) ?_
        rintro _ rfl
        exact ⟨e, .group hder⟩
  · cases h
    exact .first (Failure.justified_refuse rfl fun t rest hitems => ⟨t, rest, hitems, rfl⟩)
      Failure.rest_refuse filler_emptyQuote hoperand
termination_by (totalWeight items, 0)

theorem chain_fails (level : Nat) (items : List Item) {f : Failure}
    (h : chain level items = .error f) : Fails (fun ts => ∃ e, Chain level ts e) items f := by
  cases level with
  | zero =>
    rw [chain_zero] at h
    refine (primary_fails items h).mono ?_
    rintro ts ⟨e, hder⟩
    exact ⟨e, .operand hder⟩
  | succ level =>
    rw [chain_succ] at h
    split at h
    · rename_i g hread
      cases h
      refine (chain_fails level items hread).mono ?_
      rintro ts ⟨e, hder⟩
      exact ⟨e, .single hder⟩
    · rename_i left mid hread
      have hw := totalWeight_chain hread
      obtain ⟨ls, rfl, hl⟩ := chain_sound level items hread
      exact (operators_fails level left mid h).behind ls fun ts hts => hts (.single hl)
termination_by (totalWeight items, level + 1)

theorem operators_fails (level : Nat) (left : Expr) (items : List Item) {f : Failure}
    (h : operators level left items = .error f) :
    Fails (fun ts => ∀ {ls : List Token}, Chain (level + 1) ls left →
      ∃ e, Chain (level + 1) (ls ++ ts) e) items f := by
  rw [operators_eq] at h
  split at h
  · cases h
    exact .first (.here ⟨_, rfl⟩) rfl filler_nil fun hl => ⟨left, by rwa [List.append_nil]⟩
  · rename_i op after
    split at h
    · rename_i hop
      split at h
      · rename_i g hread
        have hw : totalWeight after < totalWeight (.token (.operator op) :: after) :=
          totalWeight_tail _ _
        cases h
        refine (chain_fails level after hread).behind [.operator op] ?_
        rintro ts ⟨right, hr⟩ ls hl
        exact ⟨_, .apply (mem_operatorsOf.mpr hop) hl hr⟩
      · rename_i right mid hread
        have hw : totalWeight after < totalWeight (.token (.operator op) :: after) :=
          totalWeight_tail _ _
        have hw' := Nat.lt_trans (totalWeight_chain hread) hw
        obtain ⟨rs, rfl, hr⟩ := chain_sound level after hread
        refine (operators_fails level (.binary op left right) mid h).behind (.operator op :: rs) ?_
        intro ts hts ls hl
        have happly := hts (Chain.apply (mem_operatorsOf.mpr hop) hl hr)
        rwa [List.append_assoc] at happly
    · cases h
  · cases h
termination_by (totalWeight items, 0)

theorem statement_fails (items : List Item) {f : Failure} (h : statement items = .error f) :
    Fails (fun ts => ∃ e, Statement ts e) items f := by
  rw [statement_eq] at h
  split at h
  · rename_i name after
    split at h
    · rename_i g hread
      have hw : totalWeight after <
          totalWeight (.token (.identifier name) :: .token .assign :: after) :=
        Nat.lt_trans (totalWeight_tail _ _) (totalWeight_tail _ _)
      cases h
      refine (chain_fails loosestLevel after hread).behind [.identifier name, .assign] ?_
      rintro ts ⟨value, hder⟩
      exact ⟨_, .assign hder⟩
    · cases h
  · rename_i name slice after
    cases h
    exact ⟨.here ⟨after, rfl⟩, [.identifier name], [], rfl, filler_nil, _,
      .expression (Primary.variable.chain _)⟩
  · refine (chain_fails loosestLevel _ h).mono ?_
    rintro ts ⟨e, hder⟩
    exact ⟨e, .expression hder⟩
termination_by (totalWeight items, loosestLevel + 2)

theorem arguments_fails (items : List Item) {f : Failure} (h : arguments items = .error f) :
    Fails (fun ts => ∃ tokens es, ts = tokens ++ [.rightParen] ∧ Arguments tokens es) items f := by
  rw [arguments_eq] at h
  split at h
  · cases h
  · exact argumentList_fails _ h
termination_by (totalWeight items, loosestLevel + 4)

theorem argumentList_fails (items : List Item) {f : Failure} (h : argumentList items = .error f) :
    Fails (fun ts => ∃ tokens es, ts = tokens ++ [.rightParen] ∧ Arguments tokens es) items f := by
  rw [argumentList_eq] at h
  split at h
  · rename_i g hread
    cases h
    refine (statement_fails items hread).part [] [.rightParen] filler_rightParen ?_
    rintro ts ⟨e, hder⟩
    exact ⟨ts, [e], rfl, .last hder⟩
  · rename_i e mid hread
    have hw := totalWeight_statement hread
    obtain ⟨ts, rfl, hder⟩ := statement_sound items hread
    split at h
    · rename_i after
      split at h
      · rename_i g hread'
        have hw' := Nat.lt_trans (totalWeight_tail (.token .comma) after) hw
        cases h
        have hfails := (argumentList_fails after hread').behind (ts ++ [.comma])
          (D := fun us => ∃ tokens es, us = tokens ++ [.rightParen] ∧ Arguments tokens es) (by
            rintro _ ⟨us, es, rfl, hders⟩
            exact ⟨ts ++ .comma :: us, e :: es, by simp, .cons hder hders⟩)
        simpa using hfails
      · cases h
    · cases h
    · rename_i hcomma hclose
      cases h
      have hjust : (Failure.refuse (fun t => .expectedComma t.text) .missingClosingParen
          mid).Justified :=
        Failure.justified_refuse (.inl rfl) fun t rest hmid => ⟨t, rest, hmid, rfl⟩
      have hfails : Fails (· = [.rightParen]) mid _ :=
        .first hjust Failure.rest_refuse filler_rightParen rfl
      refine hfails.behind ts ?_
      rintro _ rfl
      exact ⟨ts, [e], rfl, .last hder⟩
termination_by (totalWeight items, loosestLevel + 3)

theorem readProgram_fails (items : List Item) {f : Failure} (h : readProgram items = .error f) :
    Fails (fun ts => ∃ p, Statements ts p) items f := by
  by_cases hne : items = []
  · subst hne
    rw [readProgram_nil] at h
    cases h
  rw [readProgram_eq hne] at h
  split at h
  · rename_i g hread
    cases h
    refine (statement_fails items hread).mono ?_
    rintro ts ⟨e, hder⟩
    exact ⟨[e], .last hder⟩
  · rename_i e mid hread
    have hw := totalWeight_statement hread
    obtain ⟨ts, rfl, hder⟩ := statement_sound items hread
    split at h
    · cases h
    · rename_i after
      split at h
      · rename_i g hread'
        have hw' := Nat.lt_trans (totalWeight_tail (.token .semicolon) after) hw
        cases h
        have hfails := (readProgram_fails after hread').behind (ts ++ [.semicolon])
          (D := fun us => ∃ p, Statements us p) (by
            rintro us ⟨p, hders⟩
            exact ⟨e :: p, by simpa using Statements.cons hder hders⟩)
        simpa using hfails
      · cases h
    · cases h
      have hjust : (Failure.refuse (fun t => .unexpectedToken t.text) .unexpectedEnd
          mid).Justified :=
        Failure.justified_refuse rfl fun t rest hmid => ⟨t, rest, hmid, rfl⟩
      have hfails : Fails (· = []) mid _ := .first hjust Failure.rest_refuse filler_nil rfl
      refine hfails.behind ts ?_
      rintro _ rfl
      exact ⟨[e], by simpa using Statements.last hder⟩
termination_by (totalWeight items, loosestLevel + 3)

end

end Grammar
end FormulaLang
