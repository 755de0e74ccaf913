import FormulaLang.CommandLine.Report
import FormulaLang.Proofs.Bindings

/-!
# FormulaLang.Proofs.Rebinding

What the command line binds.

* `Table.ofList_toList`: a table is that of its entries.
* `bindable_of_read`: whatever the arguments are, the names that they bind can be bound again. No
  step of the reading adds a binding that has not been read as one (`Progress.Sound`).
* `read_rebindings`: entries of a list of variables that are given as arguments, one each, give
  that list's table.
-/

namespace FormulaLang

/-! ## Tables from their entries -/

namespace Table

variable {α : Type}

theorem mem_iff_lookup {entries : List (String × α)}
    (h : entries.Pairwise fun a b => a.1 < b.1) {name : String} {x : α} :
    (name, x) ∈ entries ↔ entries.lookup name = some x := by
  induction entries with
  | nil => exact ⟨nofun, nofun⟩
  | cons e rest ih =>
    obtain ⟨n, v⟩ := e
    obtain ⟨hn, hrest⟩ := List.pairwise_cons.mp h
    rw [List.mem_cons, Prod.mk.injEq, ih hrest, lookup_cons_eq]
    by_cases hname : name = n
    · subst hname
      rw [if_pos rfl, lookup_eq_none_of_lt hn, Option.some.injEq]
      simp [eq_comm]
    · rw [if_neg hname]
      simp [hname]

/-- The entries are the bindings. -/
theorem mem_toList_iff {t : Table α} {name : String} {x : α} :
    (name, x) ∈ t.toList ↔ t.get? name = some x :=
  mem_iff_lookup t.sorted

/-- A name behind all others is appended. -/
theorem insertEntry_of_gt {entries : List (String × α)} {name : String} (x : α)
    (h : ∀ e ∈ entries, e.1 < name) : insertEntry name x entries = entries ++ [(name, x)] := by
  induction entries with
  | nil => rfl
  | cons e rest ih =>
    have he := h e List.mem_cons_self
    rw [insertEntry, if_neg (String.lt_asymm he), if_pos he,
      ih fun e' he' => h e' (List.mem_cons_of_mem e he')]
    rfl

theorem entries_foldl_insert (t : Table α) {rest : List (String × α)}
    (h : (t.entries ++ rest).Pairwise fun a b => a.1 < b.1) :
    (rest.foldl (fun t e => t.insert e.1 e.2) t).entries = t.entries ++ rest := by
  induction rest generalizing t with
  | nil => rw [List.append_nil]; rfl
  | cons e rest ih =>
    have hentries : (t.insert e.1 e.2).entries = t.entries ++ [e] :=
      insertEntry_of_gt e.2 fun e' he' => (List.pairwise_append.mp h).2.2 e' he' e List.mem_cons_self
    rw [List.foldl_cons, ih, hentries, List.append_assoc]
    · rfl
    · rw [hentries, List.append_assoc]
      exact h

theorem mem_of_foldl_insert {entries : List (String × α)} {t : Table α} {name : String}
    (h : (entries.foldl (fun t e => t.insert e.1 e.2) t).get? name ≠ none) :
    t.get? name ≠ none ∨ ∃ x, (name, x) ∈ entries := by
  induction entries generalizing t with
  | nil => exact .inl h
  | cons e rest ih =>
    rcases ih h with hinsert | ⟨x, hmem⟩
    · by_cases hname : name = e.1
      · exact .inr ⟨e.2, by rw [hname]; exact List.mem_cons_self⟩
      · rw [get?_insert_of_ne t e.2 hname] at hinsert
        exact .inl hinsert
    · exact .inr ⟨x, List.mem_cons_of_mem e hmem⟩

/-- A table is that of its entries. -/
theorem ofList_toList (t : Table α) : ofList t.toList = t := by
  have hentries : (ofList t.toList).entries = t.entries := entries_foldl_insert ∅ t.sorted
  apply ext_get?
  intro name
  rw [get?, hentries, get?]

end Table

namespace CommandLine

/-! ## Names that are read -/

namespace Progress

/-- All names that have been bound can be bound again. -/
def Sound (p : Progress) : Prop := ∀ b ∈ p.bindings, Bindable b.1

/-- What the reading goes on with, if it does, is sound. -/
def Leads (r : Except Stop Progress) : Prop := ∀ p, r = .ok p → p.Sound

variable {p : Progress}

theorem leads_error (stop : Stop) : Leads (.error stop) := nofun

theorem Sound.leads (h : p.Sound) : Leads (.ok p) := by
  rintro _ ⟨⟩
  exact h

theorem Sound.bind (h : p.Sound) (raw : String) : Leads (p.bind raw) := by
  rw [Progress.bind]
  split
  · rename_i binding hbinding
    apply Sound.leads
    intro b hb
    rcases List.mem_cons.mp hb with rfl | hb
    · exact bindable_of_readBinding hbinding
    · exact h b hb
  · exact leads_error _

theorem Sound.settle (h : p.Sound) : Leads p.settle := by
  rw [Progress.settle]
  split
  · exact h.leads
  · exact leads_error _
  · exact Sound.bind (p := { p with pending := .nothing }) h _

theorem Sound.raise (h : p.Sound) (flag : Flag) : Leads (p.raise flag) := by
  rw [Progress.raise]
  split
  · exact leads_error _
  · rename_i q hq
    split
    · exact leads_error _
    · exact Sound.leads (h.settle q hq)

theorem leads_stopWith (p : Progress) (stop : Stop) : Leads (p.stopWith stop) := by
  rw [Progress.stopWith]
  split <;> exact leads_error _

theorem Sound.openBinding (h : p.Sound) (value : Option String) : Leads (p.openBinding value) := by
  rw [Progress.openBinding]
  split
  · exact leads_error _
  · rename_i q hq
    have hq : q.Sound := h.settle q hq
    split
    · exact hq.bind _
    · exact Sound.leads hq

theorem Sound.takeFormula (h : p.Sound) (argument : String) : Leads (p.takeFormula argument) := by
  rw [Progress.takeFormula]
  split
  · exact leads_error _
  · split
    · exact leads_error _
    · rename_i q hq
      exact Sound.leads (h.settle q hq)

theorem Sound.takeShort (h : p.Sound) (cs : List Char) : Leads (p.takeShort cs) := by
  fun_induction Progress.takeShort p cs with
  | case1 => exact h.leads
  | case2 => exact leads_error _
  | case3 p cs q hq ih => exact ih (h.raise _ q hq)
  | case4 => exact h.openBinding _
  | case5 => exact h.openBinding _
  | case6 => exact h.openBinding _
  | case7 => exact leads_stopWith _ _
  | case8 => exact leads_stopWith _ _
  | case9 => exact leads_error _

theorem leads_takeBare {r : Except Stop Progress} (h : Leads r) (option : String)
    (value : Option String) : Leads (takeBare option value r) := by
  cases value with
  | none => exact h
  | some value => exact leads_error _

theorem Sound.takeLong (h : p.Sound) (name : String) (value : Option String) :
    Leads (p.takeLong name value) := by
  rw [Progress.takeLong]
  split_ifs
  · exact h.openBinding _
  · exact leads_takeBare (h.raise _) _ _
  · exact leads_takeBare (h.raise _) _ _
  · exact leads_takeBare (h.raise _) _ _
  · exact leads_takeBare (leads_stopWith _ _) _ _
  · exact leads_takeBare (leads_stopWith _ _) _ _
  · exact leads_error _

theorem Sound.take (h : p.Sound) (argument : String) : Leads (p.take argument) := by
  rw [Progress.take]
  split
  · split
    · exact h.takeLong _ _
    · exact h.takeLong _ _
  · exact h.takeShort _
  · split
    · exact Sound.leads h
    · exact h.takeFormula _

theorem Sound.takeFormulas (h : p.Sound) (arguments : List String) :
    Leads (p.takeFormulas arguments) := by
  induction arguments generalizing p with
  | nil => exact h.leads
  | cons argument rest ih =>
    rw [Progress.takeFormulas]
    split
    · exact leads_error _
    · rename_i q hq
      exact ih (h.takeFormula _ q hq)

theorem Sound.takeAll (h : p.Sound) (arguments : List String) : Leads (p.takeAll arguments) := by
  induction arguments generalizing p with
  | nil => exact h.leads
  | cons argument rest ih =>
    unfold Progress.takeAll
    split
    · rename_i heq
      cases heq
    · exact h.takeFormulas _
    · rename_i heq
      cases heq
      split
      · exact leads_error _
      · rename_i q hq
        exact ih (h.take _ q hq)

end Progress

/-- All names that the arguments bind can be bound. -/
theorem bindable_of_read {arguments : List String} {o : Options}
    (h : Options.read arguments = .ok o) : ∀ b ∈ o.bindings, Bindable b.1 := by
  have hstart : Progress.start.Sound := by
    intro b hb
    cases hb
  rw [Options.read] at h
  split at h
  · cases h
  · rename_i p hp
    split at h
    · cases h
    · rename_i q hq
      split at h
      · cases h
      · cases h
        exact (hstart.takeAll _ p hp).settle q hq

/-! ## Entries as arguments -/

/-- The argument that binds a variable as an entry of the list shows it. -/
def rebinding (e : String × Float) : String := "--var=" ++ dumpEntry e.1 e.2

theorem take_rebinding {p : Progress} (hp : p.settle = .ok p) {e : String × Float}
    (he : Bindable e.1) :
    p.take (rebinding e) = .ok { p with bindings := e :: p.bindings } := by
  have hchars : (rebinding e).toList =
      '-' :: '-' :: (['v', 'a', 'r'] ++ '=' :: (dumpEntry e.1 e.2).toList) := by
    rw [rebinding, String.toList_append]
    rfl
  have hsign : '=' ∉ ['v', 'a', 'r'] := by decide
  have hname : String.ofList ['v', 'a', 'r'] = "var" := rfl
  have hbinding : readBinding (dumpEntry e.1 e.2) = .ok e := readBinding_spaced he e.2
  rw [Progress.take, hchars]
  simp only [splitSign?_append hsign, Progress.takeLong, hname, if_true, Progress.openBinding, hp,
    Progress.bind, String.ofList_toList, hbinding]

theorem takeAll_rebindings {entries : List (String × Float)} (h : ∀ e ∈ entries, Bindable e.1)
    {p : Progress} (hp : p.pending = .nothing) (rest : List String) :
    p.takeAll (entries.map rebinding ++ rest) =
      { p with bindings := entries.reverse ++ p.bindings }.takeAll rest := by
  induction entries generalizing p with
  | nil => rfl
  | cons e entries ih =>
    have hsettle : p.settle = .ok p := by rw [Progress.settle, hp]
    have hne : rebinding e ≠ "--" := by
      intro heq
      have hlength := congrArg (fun s => s.toList.length) heq
      simp [rebinding] at hlength
    rw [List.map_cons, List.cons_append, Progress.takeAll.eq_3 _ _ _ hne,
      take_rebinding hsettle (h e List.mem_cons_self)]
    simp only
    rw [ih (fun e' he' => h e' (List.mem_cons_of_mem e he'))
      (p := { p with bindings := e :: p.bindings }) hp]
    simp only [List.reverse_cons, List.append_assoc, List.singleton_append]

/-- Binding all entries of a table gives that table. -/
theorem read_rebindings {t : Table Float} (h : ∀ e ∈ t.toList, Bindable e.1) (formula : String) :
    ∃ o, Options.read (t.toList.map rebinding ++ ["--", formula]) = .ok o ∧
      o.formula = formula ∧ o.variables = t := by
  refine ⟨⟨false, false, false, t.toList.reverse, formula⟩, ?_, rfl, ?_⟩
  · rw [Options.read, takeAll_rebindings h rfl, Progress.start, List.append_nil]
    rfl
  · rw [Options.variables, List.reverse_reverse, Table.ofList_toList]

end CommandLine
end FormulaLang
