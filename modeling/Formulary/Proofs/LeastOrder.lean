import Formulary.Proofs.EvaluationOrder
import Formulary.Proofs.Grammar
import Mathlib.Data.List.Lex
import Mathlib.Data.Prod.Lex

/-!
# The preferred order

Of all orders in which each formula comes after those it depends on, the one that is found is the
preferred one: at the first place where another one differs it has the preferred formula. Nothing
has to be exchanged to see this. What the other order has at that place has everything it needs
before it, so it was ready when the place was given, and the preferred one of what was ready got
the place.

There is only one such order. So it makes no difference in which order dependencies are listed, nor
in which order the search keeps what is ready.

## Main definitions

* `preference` — what a formula is preferred by
* `Dependencies.Allows` — orders in which each thing comes after what it needs
* `Dependencies.Leads` — to be the beginning of an order, or preferred to it
* `Dependencies.Shuffled` — the states of a search that keeps what is ready in any order
* `Dependencies.Stores` — to list the dependencies of formulas, in any order

## Main results

* `Dependencies.leads_concat` — each place goes to what leads every order
* `Dependencies.Shuffled.map_le` — the order that is found is the preferred one
* `evaluationOrder_least` — the same for formulas, and whatever is shuffled
-/

namespace Formulary

open Relation

namespace Dependencies

variable {g : Dependencies} {κ : Type} [LinearOrder κ] {key : Nat → κ}
  {prefers : Nat → Nat → Bool} {s : Progress} {i : Nat} {order : List Nat}

/-! ### The preferred one of what is ready -/

/-- The first of a list is not preferred by any of it. -/
theorem key_le_of_first? (hkey : ∀ i j, prefers i j = true ↔ key i < key j) {l : List Nat}
    (h : first? prefers l = some i) : ∀ j ∈ l, key i ≤ key j := by
  induction l generalizing i with
  | nil => cases h
  | cons k rest ih =>
    rw [first?] at h
    split at h
    · rename_i hrest
      cases h
      rw [eq_nil_of_first? hrest]
      simp
    · rename_i m hm
      have hle := ih hm
      split at h
      · rename_i hprefers
        cases h
        exact List.forall_mem_cons.mpr ⟨((hkey _ _).mp hprefers).le, hle⟩
      · rename_i hprefers
        obtain rfl := Option.some.inj h
        have hkm : key k ≤ key m := not_lt.mp fun hlt => hprefers ((hkey _ _).mpr hlt)
        exact List.forall_mem_cons.mpr ⟨le_refl _, fun j hj => hkm.trans (hle j hj)⟩

/-! ### Orders -/

/-- The orders of all things in which each comes after those that it needs. -/
structure Allows (g : Dependencies) (order : List Nat) : Prop where
  perm : order.Perm (List.range g.size)
  after : ∀ {before i rest}, order = before ++ i :: rest → ∀ j, g.Needs i j → j ∈ before

/-- Whether things that have got places are the beginning of an order, or have something preferred
in the first place where they differ from it. -/
def Leads (key : Nat → κ) (placed order : List Nat) : Prop :=
  placed <+: order ∨ ∃ common i j rest rest',
    placed = common ++ i :: rest ∧ order = common ++ j :: rest' ∧ key i < key j

/-- What an order has after its beginning is ready when the beginning has got its places. -/
theorem mem_ready_of_allows (hs : s.Sound g) (horder : g.Allows order) {rest : List Nat}
    (heq : order = s.placed ++ i :: rest) : i ∈ s.ready := by
  refine (hs.mem_ready i).mpr ⟨?_, fun hi => ?_, fun j hneeds => horder.after heq j hneeds⟩
  · exact List.mem_range.mp (horder.perm.mem_iff.mp (by rw [heq]; simp))
  · have hnodup : (s.placed ++ i :: rest).Nodup :=
      heq ▸ horder.perm.nodup_iff.mpr List.nodup_range
    exact List.disjoint_of_nodup_append hnodup hi List.mem_cons_self

/-- **One place more.** When the preferred one of what is ready gets the next place, what leads an
order leads it still. -/
theorem leads_concat (hkey : ∀ i j, prefers i j = true ↔ key i < key j)
    (hinjective : Function.Injective key) (hs : s.Sound g) (horder : g.Allows order)
    (hnext : first? prefers s.ready = some i) (h : Leads key s.placed order) :
    Leads key (s.placed ++ [i]) order := by
  rcases h with ⟨rest, heq⟩ | ⟨common, k, j, rest, rest', hplaced, heq, hlt⟩
  · cases rest with
    | nil =>
      -- Everything has a place, and what is ready has none.
      obtain ⟨hisize, hiplaced, -⟩ := (hs.mem_ready i).mp (mem_of_first? hnext)
      rw [List.append_nil] at heq
      exact absurd (heq ▸ horder.perm.mem_iff.mpr (List.mem_range.mpr hisize)) hiplaced
    | cons j rest =>
      have hle := key_le_of_first? hkey hnext j (mem_ready_of_allows hs horder heq.symm)
      rcases hle.eq_or_lt with hsame | hlt
      · obtain rfl := hinjective hsame
        exact .inl ⟨rest, by rw [← heq, List.append_assoc]; rfl⟩
      · exact .inr ⟨s.placed, i, j, [], rest, rfl, heq.symm, hlt⟩
  · exact .inr ⟨common, k, j, rest ++ [i], rest', by rw [hplaced]; simp, heq, hlt⟩

/-- What leads an order and is as long is preferred to it. -/
theorem Leads.map_le {placed : List Nat} (h : Leads key placed order)
    (hlength : order.length ≤ placed.length) : placed.map key ≤ order.map key := by
  rcases h with hbegins | ⟨common, i, j, rest, rest', rfl, rfl, hlt⟩
  · rw [hbegins.eq_of_length_le hlength]
  · refine le_of_lt ?_
    rw [List.map_append, List.map_append, List.map_cons, List.map_cons]
    exact List.append_left_lt (List.cons_lt_cons_iff.mpr (.inl hlt))

/-! ### Searching in any order -/

/-- The states of a search for an order that keeps what is ready in any order whatever, and changes
it at each step. -/
inductive Shuffled (g : Dependencies) (prefers : Nat → Nat → Bool) : Progress → Prop where
  | start {ready : List Nat} (hready : ready.Perm g.start.ready) :
      Shuffled g prefers { g.start with ready := ready }
  | place {s : Progress} {i : Nat} {ready : List Nat} (h : Shuffled g prefers s)
      (hnext : first? prefers s.ready = some i) (hready : ready.Perm (g.place s i).ready) :
      Shuffled g prefers { g.place s i with ready := ready }

/-- The search for an order is one of these. -/
theorem Reached.shuffled (h : g.Reached prefers s) : g.Shuffled prefers s := by
  induction h with
  | start => exact .start (.refl _)
  | place _ hnext ih => exact ih.place hnext (.refl _)

/-- It makes no difference to what holds in which order the ready things are kept. -/
theorem Progress.Sound.of_perm (hs : s.Sound g) {ready : List Nat} (h : ready.Perm s.ready) :
    Progress.Sound g { s with ready := ready } where
  nodup_placed := hs.nodup_placed
  lt_size := hs.lt_size
  ordered := hs.ordered
  length_waiting := hs.length_waiting
  waiting := hs.waiting
  nodup_ready := h.nodup_iff.mpr hs.nodup_ready
  mem_ready := fun i => h.mem_iff.trans (hs.mem_ready i)

namespace Shuffled

theorem sound (hg : g.IsProper) (h : g.Shuffled prefers s) : s.Sound g := by
  induction h with
  | start hready => exact (sound_start g).of_perm hready
  | place _ hnext hready ih => exact (sound_place hg ih (mem_of_first? hnext)).of_perm hready

/-- What has got places leads every order at any time. -/
theorem leads (hg : g.IsProper) (hkey : ∀ i j, prefers i j = true ↔ key i < key j)
    (hinjective : Function.Injective key) (horder : g.Allows order) (h : g.Shuffled prefers s) :
    Leads key s.placed order := by
  induction h with
  | start _ => exact .inl (List.nil_prefix)
  | place hs hnext _ ih => exact leads_concat hkey hinjective (hs.sound hg) horder hnext ih

/-- When nothing is ready, an order has been found, if there is no circle. -/
theorem allows (hg : g.IsProper) (hacyclic : ∀ i, ¬ TransGen g.Needs i i)
    (h : g.Shuffled prefers s) (hready : s.ready = []) : g.Allows s.placed :=
  ⟨(h.sound hg).perm_of_ready_eq_nil hg hacyclic hready, (h.sound hg).ordered⟩

/-- **The preferred order.** No order is preferred to the one that is found. -/
theorem map_le (hg : g.IsProper) (hacyclic : ∀ i, ¬ TransGen g.Needs i i)
    (hkey : ∀ i j, prefers i j = true ↔ key i < key j) (hinjective : Function.Injective key)
    (h : g.Shuffled prefers s) (hready : s.ready = []) (horder : g.Allows order) :
    s.placed.map key ≤ order.map key :=
  (h.leads hg hkey hinjective horder).map_le
    (horder.perm.trans (h.allows hg hacyclic hready).perm.symm).length_eq.le

end Shuffled

end Dependencies

/-! ### Formulas -/

/-- What formula `i` is preferred by: numbers come before truth values, and then the formula that
stands first. -/
def preference (formulas : List Formula) (i : Nat) : Bool ×ₗ Nat :=
  toLex ((formulas[i]?.bind fun f => f.isComparison.toOption).getD false, i)

/-- Whether dependencies are those of formulas, those of each formula listed once each in any
order. -/
structure Dependencies.Stores (g : Dependencies) (formulas : List Formula) : Prop where
  nodup : ∀ i, (g.of i).Nodup
  size_eq : g.size = formulas.length
  needs_iff : ∀ i j, g.Needs i j ↔ DependsOn formulas i j

variable {formulas : List Formula}

theorem preference_injective (formulas : List Formula) :
    Function.Injective (preference formulas) := by
  intro i j h
  exact congrArg (fun k => (ofLex k).2) h

theorem getElem?_of_mapM {comparisons : List Bool}
    (h : formulas.mapM Formula.isComparison = .ok comparisons) (i : Nat) :
    comparisons[i]? = formulas[i]?.bind fun f => f.isComparison.toOption := by
  induction formulas generalizing comparisons i with
  | nil =>
    cases h
    rfl
  | cons f rest ih =>
    rw [List.mapM_cons] at h
    cases hf : f.isComparison with
    | error e => rw [hf] at h; cases h
    | ok comparison =>
      cases hrest : rest.mapM Formula.isComparison with
      | error e => rw [hf, hrest] at h; cases h
      | ok comparisons' =>
        rw [hf, hrest] at h
        cases h
        cases i with
        | zero => simp [hf, Except.toOption]
        | succ i => simpa using ih hrest i

/-- One formula comes before another if it is preferred. -/
theorem comesBefore_iff {comparisons : List Bool}
    (h : formulas.mapM Formula.isComparison = .ok comparisons) (i j : Nat) :
    comesBefore comparisons i j = true ↔ preference formulas i < preference formulas j := by
  rw [preference, preference, Prod.Lex.toLex_lt_toLex, ← getElem?_of_mapM h, ← getElem?_of_mapM h,
    comesBefore, List.getD_eq_getElem?_getD, List.getD_eq_getElem?_getD]
  cases comparisons[i]?.getD false <;> cases comparisons[j]?.getD false <;> simp

namespace Dependencies.Stores

variable {g : Dependencies} (hg : g.Stores formulas)

include hg

theorem isProper : g.IsProper where
  nodup := hg.nodup
  lt_size := by
    intro i j h
    obtain ⟨_, f, -, hf, -⟩ := (hg.needs_iff i j).mp h
    rw [hg.size_eq]
    exact (List.getElem?_eq_some_iff.mp hf).1

theorem acyclic (hacyclic : ∀ i, ¬ TransGen (DependsOn formulas) i i) (i : Nat) :
    ¬ TransGen g.Needs i i := fun h =>
  hacyclic i (TransGen.mono (fun i j => (hg.needs_iff i j).mp) i i h)

theorem allows_iff {order : List Nat} : g.Allows order ↔ IsOrder formulas order := by
  constructor
  · rintro ⟨hperm, hafter⟩
    rw [hg.size_eq] at hperm
    exact ⟨hperm, fun heq j hj => hafter heq j ((hg.needs_iff _ j).mpr hj)⟩
  · rintro ⟨hperm, hafter⟩
    rw [← hg.size_eq] at hperm
    exact ⟨hperm, fun heq j hj => hafter heq j ((hg.needs_iff _ j).mp hj)⟩

end Dependencies.Stores

theorem stores_dependencies (formulas : List Formula) :
    (dependencies formulas).Stores formulas where
  nodup := (isProper_dependencies formulas).nodup
  size_eq := size_dependencies formulas
  needs_iff := fun _ _ => needs_iff_dependsOn

/-- Whether an order of formulas is the one that no other is preferred to. -/
structure IsPreferred (formulas : List Formula) (order : List Nat) : Prop where
  isOrder : IsOrder formulas order
  least : ∀ order', IsOrder formulas order' →
    order.map (preference formulas) ≤ order'.map (preference formulas)

/-- There is one preferred order only. -/
theorem IsPreferred.unique {order order' : List Nat} (h : IsPreferred formulas order)
    (h' : IsPreferred formulas order') : order = order' :=
  (preference_injective formulas).list_map
    (le_antisymm (h.least order' h'.isOrder) (h'.least order h.isOrder))

/-- However it is done, the search finds the preferred order. -/
theorem Dependencies.Stores.isPreferred {g : Dependencies} (hg : g.Stores formulas)
    (hacyclic : ∀ i, ¬ TransGen (DependsOn formulas) i i) {prefers : Nat → Nat → Bool}
    (hprefers : ∀ i j, prefers i j = true ↔ preference formulas i < preference formulas j)
    {s : Progress} (h : g.Shuffled prefers s) (hready : s.ready = []) :
    IsPreferred formulas s.placed where
  isOrder := hg.allows_iff.mp (h.allows hg.isProper (hg.acyclic hacyclic) hready)
  least := fun _ horder => h.map_le hg.isProper (hg.acyclic hacyclic) hprefers
    (preference_injective formulas) hready (hg.allows_iff.mpr horder)

/-- The search that is made ends, and its places are the order. -/
theorem exists_shuffled (hgenerated : ∀ f ∈ formulas, f.IsGenerated)
    (hacyclic : ∀ i, ¬ TransGen (DependsOn formulas) i i) :
    ∃ prefers s,
      (∀ i j, prefers i j = true ↔ preference formulas i < preference formulas j) ∧
      (dependencies formulas).Shuffled prefers s ∧ s.ready = [] ∧
      evaluationOrder formulas = .ok s.placed := by
  obtain ⟨comparisons, hcomparisons, hsearches⟩ :=
    (hasOrder_of_classified fun f hf => (hgenerated f hf).exists_isComparison).searches
  obtain ⟨s, hs, hstop, horder⟩ := hsearches.stops hacyclic
  exact ⟨_, s, comesBefore_iff hcomparisons, hs.shuffled, Dependencies.eq_nil_of_first? hstop,
    horder⟩

/-- **The order of evaluation is the preferred one.** Of formulas that are all generated, none of
which depends on itself, there is an order of evaluation, and no order in which each comes after
those it depends on is preferred to it. It is told by what depends on what and by what is preferred:
other formulas with the same dependencies and preferences have the same order, and so has every
search, in whatever order it lists dependencies and keeps what is ready. -/
theorem evaluationOrder_least (hgenerated : ∀ f ∈ formulas, f.IsGenerated)
    (hacyclic : ∀ i, ¬ TransGen (DependsOn formulas) i i) :
    ∃ order, evaluationOrder formulas = .ok order ∧ IsOrder formulas order ∧
      (∀ order', IsOrder formulas order' →
        order.map (preference formulas) ≤ order'.map (preference formulas)) ∧
      (∀ formulas' : List Formula, (∀ f ∈ formulas', f.IsGenerated) →
        formulas'.length = formulas.length →
        (∀ i j, DependsOn formulas' i j ↔ DependsOn formulas i j) →
        (∀ i, preference formulas' i = preference formulas i) →
        evaluationOrder formulas' = .ok order) ∧
      ∀ (g : Dependencies) (prefers : Nat → Nat → Bool) (s : Dependencies.Progress),
        g.Stores formulas →
        (∀ i j, prefers i j = true ↔ preference formulas i < preference formulas j) →
        g.Shuffled prefers s → s.ready = [] → s.placed = order := by
  obtain ⟨prefers, s, hprefers, hs, hready, horder⟩ := exists_shuffled hgenerated hacyclic
  have hpreferred := (stores_dependencies formulas).isPreferred hacyclic hprefers hs hready
  refine ⟨s.placed, horder, hpreferred.isOrder, hpreferred.least, ?_, ?_⟩
  · intro formulas' hgenerated' hlength hdepends hpreference
    have hdepends' : DependsOn formulas' = DependsOn formulas := by
      funext i j
      exact propext (hdepends i j)
    obtain ⟨prefers', s', hprefers', hs', hready', horder'⟩ :=
      exists_shuffled hgenerated' (by rwa [hdepends'])
    -- The search made for the other formulas is one for these.
    have hstores : (dependencies formulas').Stores formulas :=
      { stores_dependencies formulas' with
        size_eq := (size_dependencies formulas').trans hlength
        needs_iff := fun i j => needs_iff_dependsOn.trans (hdepends i j) }
    have hpreferred' := hstores.isPreferred hacyclic
      (fun i j => by rw [hprefers', hpreference, hpreference]) hs' hready'
    rw [horder', hpreferred'.unique hpreferred]
  · intro g prefers' s' hg hprefers' hs' hready'
    exact (hg.isPreferred hacyclic hprefers' hs' hready').unique hpreferred

/-- A truth value that stands first and is referred to, and two numbers: the one that refers to
nothing comes before the truth value, and the other one after it. -/
theorem evaluationOrder_least_number_first :
    ∃ formulas : List Formula, formulas.map (fun f => (f.name, f.source))
        = [("a", "x>y"), ("b", "a"), ("c", "x")] ∧
      evaluationOrder formulas = .ok [2, 0, 1] ∧
      ∀ order, IsOrder formulas order →
        [2, 0, 1].map (preference formulas) ≤ order.map (preference formulas) := by
  have ha : parse .sole "a" = .ok ⟨[.reference "a"], [.reference "a"]⟩ :=
    parse_name (show Text.visible "a" = ['a'] by decide) rfl (by simp) (by decide)
  have hx : parse .sole "x" = .ok ⟨[.reference "x"], [.reference "x"]⟩ :=
    parse_name (show Text.visible "x" = ['x'] by decide) rfl (by simp) (by decide)
  have hgreater : parse .sole "x>y" = .ok
      ⟨[.reference "x", .operator (.binary .greater), .reference "y"],
        [.reference "x", .reference "y", .operator (.binary .greater)]⟩ := by
    let x : Name := ⟨'x', [], rfl, by simp, by decide⟩
    let y : Name := ⟨'y', [], rfl, by simp, by decide⟩
    have hcut : IsCut .sole "x>y" [x.text, Symbol.greater.text.toList, y.text]
        [.reference "x", .operator (.binary .greater), .reference "y"] := by
      refine ⟨by decide, .cons (.reference x (by rintro _ ⟨⟩; rfl)) (.cons (.symbol rfl ?_ ?_)
        (.cons (.reference y (by rintro _ ⟨⟩)) (.nil _)))⟩
      · rintro ⟨⟩
      · exact (Symbol.longest_iff rfl _).mpr fun c _ => isPair_eq_false (by decide) c
    exact parse_of_isCut hcut rfl
  let formulas : List Formula :=
    [⟨"a", .sole, "x>y", [.reference "x", .operator (.binary .greater), .reference "y"],
        [.reference "x", .reference "y", .operator (.binary .greater)], none⟩,
      ⟨"b", .sole, "a", [.reference "a"], [.reference "a"], none⟩,
      ⟨"c", .sole, "x", [.reference "x"], [.reference "x"], none⟩]
  have hgenerated : ∀ f ∈ formulas, f.IsGenerated := by
    simpa [formulas] using ⟨hgreater, ha, hx⟩
  have hacyclic : ∀ i, ¬ TransGen (DependsOn formulas) i i := fun i hi =>
    absurd (isCyclic_dependencies_iff.mpr ⟨i, hi⟩) (by decide)
  obtain ⟨order, horder, -, hleast, -⟩ := evaluationOrder_least hgenerated hacyclic
  have hfound : evaluationOrder formulas = .ok [2, 0, 1] := rfl
  obtain rfl := Except.ok.inj (hfound.symm.trans horder)
  exact ⟨formulas, rfl, hfound, hleast⟩

end Formulary
