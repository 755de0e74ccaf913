/-!
# FormulaLang.Table

Tables from names to values. The entries are kept in ascending order of their names, so a table
is determined by its look-ups (`Table.ext_get?`), and listing one needs no sorting. Names are
compared by code points, which for texts in UTF-8 is the order of their bytes.
-/

namespace FormulaLang

structure Table (α : Type) where
  entries : List (String × α)
  sorted : entries.Pairwise fun a b => a.1 < b.1

namespace Table

variable {α : Type}

def empty : Table α := ⟨[], .nil⟩

instance : EmptyCollection (Table α) := ⟨empty⟩

def get? (t : Table α) (name : String) : Option α := t.entries.lookup name

def toList (t : Table α) : List (String × α) := t.entries

def insertEntry (name : String) (value : α) : List (String × α) → List (String × α)
  | [] => [(name, value)]
  | (n, v) :: rest =>
    if name < n then (name, value) :: (n, v) :: rest
    else if n < name then (n, v) :: insertEntry name value rest
    else (name, value) :: rest

theorem mem_insertEntry {name : String} {value : α} {entries : List (String × α)}
    {e : String × α} (h : e ∈ insertEntry name value entries) : e = (name, value) ∨ e ∈ entries := by
  induction entries with
  | nil => simpa [insertEntry] using h
  | cons head rest ih =>
    obtain ⟨n, v⟩ := head
    simp only [insertEntry] at h
    split at h
    · simpa using h
    · split at h
      · rcases List.mem_cons.mp h with rfl | h
        · simp
        · rcases ih h with rfl | h <;> simp [*]
      · rcases List.mem_cons.mp h with rfl | h <;> simp [*]

theorem eq_of_not_lt {a b : String} (h : ¬a < b) (h' : ¬b < a) : a = b :=
  String.le_antisymm (String.not_lt.mp h') (String.not_lt.mp h)

theorem sorted_insertEntry {name : String} {value : α} {entries : List (String × α)}
    (h : entries.Pairwise fun a b => a.1 < b.1) :
    (insertEntry name value entries).Pairwise fun a b => a.1 < b.1 := by
  induction entries with
  | nil => simp [insertEntry]
  | cons head rest ih =>
    obtain ⟨n, v⟩ := head
    obtain ⟨hn, hrest⟩ := List.pairwise_cons.mp h
    simp only [insertEntry]
    split
    · rename_i hlt
      refine .cons (fun e he => ?_) h
      rcases List.mem_cons.mp he with rfl | he
      · exact hlt
      · exact String.lt_trans hlt (hn e he)
    · split
      · rename_i hgt
        refine .cons (fun e he => ?_) (ih hrest)
        rcases mem_insertEntry he with rfl | he
        · exact hgt
        · exact hn e he
      · rename_i hlt hgt
        obtain rfl := eq_of_not_lt hlt hgt
        exact .cons hn hrest

/-- The table with `name` bound to `value`, whatever it was bound to before. -/
def insert (t : Table α) (name : String) (value : α) : Table α :=
  ⟨insertEntry name value t.entries, sorted_insertEntry t.sorted⟩

def erase (t : Table α) (name : String) : Table α :=
  ⟨t.entries.filter fun e => e.1 ≠ name, t.sorted.filter _⟩

/-- The table of a list of entries, in which later entries replace earlier ones. -/
def ofList (entries : List (String × α)) : Table α :=
  entries.foldl (fun t e => t.insert e.1 e.2) ∅

theorem get?_empty (name : String) : (∅ : Table α).get? name = none := rfl

theorem lookup_cons_eq (n : String) (v : α) (rest : List (String × α)) (m : String) :
    ((n, v) :: rest).lookup m = if m = n then some v else rest.lookup m := by
  rw [List.lookup_cons]
  by_cases h : m = n
  · simp [h]
  · rw [beq_eq_false_iff_ne.mpr h, if_neg h]

theorem lookup_insertEntry {entries : List (String × α)} (name : String) (value : α) (m : String) :
    (insertEntry name value entries).lookup m =
      if m = name then some value else entries.lookup m := by
  induction entries with
  | nil => simp [insertEntry, lookup_cons_eq]
  | cons head rest ih =>
    obtain ⟨n, v⟩ := head
    simp only [insertEntry]
    split
    · rw [lookup_cons_eq]
    · split
      · rename_i hgt
        have hne : n ≠ name := fun h => String.lt_irrefl _ (h ▸ hgt)
        rw [lookup_cons_eq, lookup_cons_eq, ih]
        by_cases h : m = name
        · subst h
          simp [hne.symm]
        · simp [h]
      · rename_i hlt hgt
        obtain rfl := eq_of_not_lt hlt hgt
        rw [lookup_cons_eq, lookup_cons_eq]
        by_cases h : m = name <;> simp [h]

theorem get?_insert (t : Table α) (name : String) (value : α) (m : String) :
    (t.insert name value).get? m = if m = name then some value else t.get? m :=
  lookup_insertEntry name value m

theorem get?_insert_of_ne (t : Table α) {name m : String} (value : α) (h : m ≠ name) :
    (t.insert name value).get? m = t.get? m := by simp [get?_insert, h]

theorem lookup_eq_none_of_lt {name : String} {entries : List (String × α)}
    (h : ∀ e ∈ entries, name < e.1) : entries.lookup name = none := by
  rw [List.lookup_eq_none_iff]
  intro e he
  have hlt := h e he
  simp only [bne_iff_ne, ne_eq]
  rintro rfl
  exact String.lt_irrefl _ hlt

theorem entries_eq_of_lookup {xs ys : List (String × α)}
    (hx : xs.Pairwise fun a b => a.1 < b.1) (hy : ys.Pairwise fun a b => a.1 < b.1)
    (h : ∀ name, xs.lookup name = ys.lookup name) : xs = ys := by
  induction xs generalizing ys with
  | nil =>
    cases ys with
    | nil => rfl
    | cons head rest =>
      have := h head.1
      rw [show head = (head.1, head.2) from rfl, lookup_cons_eq] at this
      simp at this
  | cons head rest ih =>
    obtain ⟨n, v⟩ := head
    obtain ⟨hn, hrest⟩ := List.pairwise_cons.mp hx
    cases ys with
    | nil =>
      have := h n
      rw [lookup_cons_eq] at this
      simp at this
    | cons head' rest' =>
      obtain ⟨m, w⟩ := head'
      obtain ⟨hm, hrest'⟩ := List.pairwise_cons.mp hy
      have hnm : n = m := by
        apply eq_of_not_lt
        · intro hlt
          have hnone : ((m, w) :: rest').lookup n = none := lookup_eq_none_of_lt fun e he => by
            rcases List.mem_cons.mp he with rfl | he
            · exact hlt
            · exact String.lt_trans hlt (hm e he)
          have := h n
          rw [hnone] at this
          simp at this
        · intro hlt
          have hnone : ((n, v) :: rest).lookup m = none := lookup_eq_none_of_lt fun e he => by
            rcases List.mem_cons.mp he with rfl | he
            · exact hlt
            · exact String.lt_trans hlt (hn e he)
          have := h m
          rw [hnone] at this
          simp at this
      subst hnm
      have hv : v = w := by have := h n; simpa [lookup_cons_eq] using this
      subst hv
      congr 1
      refine ih hrest hrest' fun name => ?_
      by_cases hname : name = n
      · subst hname
        rw [lookup_eq_none_of_lt hn, lookup_eq_none_of_lt hm]
      · have := h name
        simpa [lookup_cons_eq, hname] using this

/-- Tables with the same look-ups are equal. -/
theorem ext_get? {t u : Table α} (h : ∀ name, t.get? name = u.get? name) : t = u := by
  obtain ⟨xs, hx⟩ := t
  obtain ⟨ys, hy⟩ := u
  have : xs = ys := entries_eq_of_lookup hx hy h
  subst this
  rfl

end Table

end FormulaLang
