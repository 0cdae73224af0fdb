import Formulary.Evaluation

/-!
# Tables of named values

The bindings that formulas are evaluated against and that change between evaluations. A table is
kept in the order of its names, so that two tables with the same bindings are one table.

## Main definitions

* `Table` — bindings with strictly increasing names
* `Table.insert`, `Table.erase`, `Table.get?` — changing and reading one binding
* `Table.ofBindings` — the table of a list of bindings, a later one replacing an earlier one
* `Table.environment`, `Table.bindings` — a table as what evaluation looks names up in

## Main results

* `Table.get?_insert`, `Table.get?_erase` — what each change does to look-up
* `Table.ext_get?` — a table is determined by its look-ups

## Implementation notes

Names are ordered by their characters' code points, which is the order of their bytes in UTF-8.
-/

namespace Formulary

/-- Bindings of names to values, in strictly increasing order of the names. -/
structure Table where
  entries : List (String × Float)
  sorted : entries.Pairwise (fun a b => a.1 < b.1)

namespace Table

/-- The table without bindings. -/
def empty : Table := ⟨[], List.Pairwise.nil⟩

/-- The value that a name is bound to. -/
def get? (t : Table) (name : String) : Option Float := t.entries.lookup name

/-- The bound names, in order. -/
def names (t : Table) : List String := t.entries.map Prod.fst

/-- The number of bound names. -/
def size (t : Table) : Nat := t.entries.length

/-- Whether nothing is bound. -/
def isEmpty (t : Table) : Bool := t.entries.isEmpty

/-- The environment in which a table is all there is. -/
def environment (t : Table) : Environment := .ofLookup t.get?

/-- The bindings where a table is all there is. -/
def bindings (t : Table) : Bindings := t.environment.bindings

/-! ### Changing a list of bindings -/

/-- The bindings with one put in its place, where it replaces one of the same name. -/
private def put (name : String) (value : Float) : List (String × Float) → List (String × Float)
  | [] => [(name, value)]
  | (n, v) :: rest =>
    if name = n then (name, value) :: rest
    else if name < n then (name, value) :: (n, v) :: rest
    else (n, v) :: put name value rest

/-- The names after a change are the old ones and the new one. -/
private theorem mem_put {name : String} {value : Float} {l : List (String × Float)}
    {e : String × Float} (h : e ∈ put name value l) : e.1 = name ∨ e ∈ l := by
  induction l with
  | nil => simp only [put, List.mem_singleton] at h; exact .inl (by rw [h])
  | cons d rest ih =>
    simp only [put] at h
    split at h
    · rcases List.mem_cons.mp h with rfl | h
      · exact .inl rfl
      · exact .inr (List.mem_cons_of_mem _ h)
    · split at h
      · rcases List.mem_cons.mp h with rfl | h
        · exact .inl rfl
        · exact .inr h
      · rcases List.mem_cons.mp h with rfl | h
        · exact .inr List.mem_cons_self
        · exact (ih h).imp_right (List.mem_cons_of_mem _)

/-- Of two different names, one comes first. -/
private theorem lt_of_not_lt {a b : String} (hne : a ≠ b) (h : ¬ a < b) : b < a :=
  Decidable.byContradiction fun h' =>
    hne (String.le_antisymm (String.not_lt.mp h') (String.not_lt.mp h))

private theorem pairwise_put {name : String} {value : Float} {l : List (String × Float)}
    (h : l.Pairwise fun a b => a.1 < b.1) : (put name value l).Pairwise fun a b => a.1 < b.1 := by
  induction l with
  | nil => exact List.pairwise_singleton _ _
  | cons d rest ih =>
    obtain ⟨hd, hrest⟩ := List.pairwise_cons.mp h
    simp only [put]
    split
    · rename_i heq
      exact List.pairwise_cons.mpr ⟨fun e he => heq ▸ hd e he, hrest⟩
    · rename_i hne
      split
      · rename_i hlt
        refine List.pairwise_cons.mpr ⟨fun e he => ?_, h⟩
        rcases List.mem_cons.mp he with rfl | he
        · exact hlt
        · exact String.lt_trans hlt (hd e he)
      · rename_i hlt
        refine List.pairwise_cons.mpr ⟨fun e he => ?_, ih hrest⟩
        rcases mem_put he with heq | he
        · rw [heq]; exact lt_of_not_lt hne hlt
        · exact hd e he

private theorem lookup_put (name : String) (value : Float) (l : List (String × Float))
    (name' : String) :
    (put name value l).lookup name' = if name' = name then some value else l.lookup name' := by
  induction l with
  | nil => grind [put]
  | cons d rest ih =>
    obtain ⟨n, v⟩ := d
    grind [put]

/-- A name that comes before all others has no binding. -/
private theorem lookup_eq_none_of_lt {name : String} {l : List (String × Float)}
    (h : ∀ e ∈ l, name < e.1) : l.lookup name = none := by
  induction l with
  | nil => rfl
  | cons d rest ih =>
    obtain ⟨n, v⟩ := d
    have hne : (name == n) = false := by
      have := h (n, v) List.mem_cons_self
      refine beq_false_of_ne fun heq => ?_
      subst heq
      exact String.lt_irrefl _ this
    rw [List.lookup_cons, hne]
    exact ih fun e he => h e (List.mem_cons_of_mem _ he)

/-- Ordered bindings are determined by their look-ups. -/
private theorem eq_of_lookup_eq {l m : List (String × Float)}
    (hl : l.Pairwise fun a b => a.1 < b.1) (hm : m.Pairwise fun a b => a.1 < b.1)
    (h : ∀ name, l.lookup name = m.lookup name) : l = m := by
  induction l generalizing m with
  | nil =>
    cases m with
    | nil => rfl
    | cons d rest =>
      obtain ⟨n, v⟩ := d
      simpa [List.lookup_cons] using h n
  | cons a l ih =>
    obtain ⟨n, v⟩ := a
    obtain ⟨ha, hl⟩ := List.pairwise_cons.mp hl
    cases m with
    | nil => simpa [List.lookup_cons] using h n
    | cons b m =>
      obtain ⟨n', v'⟩ := b
      obtain ⟨hb, hm'⟩ := List.pairwise_cons.mp hm
      have before : ∀ {x y : String} {w : Float} {k : List (String × Float)},
          x < y → (∀ e ∈ k, y < e.1) → ((y, w) :: k).lookup x = none := by
        intro x y w k hxy hk
        refine lookup_eq_none_of_lt fun e he => ?_
        rcases List.mem_cons.mp he with rfl | he
        · exact hxy
        · exact String.lt_trans hxy (hk e he)
      have hn : n = n' := by
        refine Decidable.byContradiction fun hne => ?_
        by_cases hlt : n < n'
        · have := h n
          rw [before hlt hb] at this
          simp at this
        · have := h n'
          rw [before (lt_of_not_lt hne hlt) ha] at this
          simp at this
      subst hn
      have hv := h n
      simp only [List.lookup_cons, beq_self_eq_true, Option.some.injEq] at hv
      subst hv
      refine congrArg _ (ih hl hm' fun name => ?_)
      by_cases hname : name = n
      · subst hname
        rw [lookup_eq_none_of_lt ha, lookup_eq_none_of_lt hb]
      · have := h name
        simpa [List.lookup_cons, beq_false_of_ne hname] using this

/-! ### Changing a table -/

/-- The table with a name bound to a value. -/
def insert (t : Table) (name : String) (value : Float) : Table :=
  ⟨put name value t.entries, pairwise_put t.sorted⟩

/-- The table without a binding for a name. -/
def erase (t : Table) (name : String) : Table :=
  ⟨t.entries.filter fun e => e.1 != name, t.sorted.filter _⟩

/-- The table of a list of bindings; of two bindings of one name the later one counts. -/
def ofBindings (bindings : List (String × Float)) : Table :=
  bindings.foldl (fun t b => t.insert b.1 b.2) empty

@[simp] theorem get?_empty (name : String) : empty.get? name = none := rfl

theorem get?_insert (t : Table) (name : String) (value : Float) (name' : String) :
    (t.insert name value).get? name' = if name' = name then some value else t.get? name' :=
  lookup_put name value t.entries name'

theorem get?_erase (t : Table) (name name' : String) :
    (t.erase name).get? name' = if name' = name then none else t.get? name' := by
  unfold erase get?
  dsimp only
  induction t.entries with
  | nil => simp
  | cons d rest ih =>
    obtain ⟨n, v⟩ := d
    grind

/-- **Tables are their bindings.** Two tables with the same look-ups are the same. -/
theorem ext_get? {t u : Table} (h : ∀ name, t.get? name = u.get? name) : t = u := by
  obtain ⟨entries, ht⟩ := t
  obtain ⟨entries', hu⟩ := u
  obtain rfl := eq_of_lookup_eq ht hu h
  rfl

end Table

end Formulary
