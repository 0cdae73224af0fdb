import Formulary.Proofs.Ordering

/-!
# Finding circles

What a thing needs through any number of steps is found in rounds: each round looks at what was new
in the last one. A round that brings nothing new ends the search, since everything found has been
looked at by then; and a round that brings something new leaves fewer things to be found, so that as
many rounds as there are things are enough.

## Main definitions

* `Dependencies.Explored` — what holds between rounds

## Main results

* `mem_reachable_iff` — the search finds what is needed through one or more steps, and nothing else
* `onCycle_iff`, `isCyclic_iff` — circles are found exactly where they are
-/

namespace Formulary

namespace Dependencies

open Relation

variable {g : Dependencies} {found frontier : List Nat}

/-- What holds between rounds: what has been found is listed once, the things still to be looked at
are among it, and what the others need has been found. -/
structure Explored (g : Dependencies) (found frontier : List Nat) : Prop where
  nodup : found.Nodup
  lt_size : ∀ k ∈ found, k < g.size
  subset : frontier ⊆ found
  closed : ∀ k ∈ found, k ∉ frontier → ∀ j, g.Needs k j → j ∈ found

/-- The things that are new in a round. -/
def fresh (g : Dependencies) (found frontier : List Nat) : List Nat :=
  ((frontier.flatMap g.of).filter fun j => !found.contains j).eraseDups

theorem closure_succ (steps : Nat) : g.closure (steps + 1) found frontier =
    if (g.fresh found frontier).isEmpty then found
    else g.closure steps (found ++ g.fresh found frontier) (g.fresh found frontier) := rfl

theorem mem_fresh_iff {j : Nat} :
    j ∈ g.fresh found frontier ↔ (∃ k ∈ frontier, g.Needs k j) ∧ j ∉ found := by
  simp [fresh, List.mem_eraseDups, List.mem_flatMap, Needs]

namespace Explored

variable (h : g.Explored found frontier)

include h

/-- What is found needs what is found or new. -/
theorem mem_or_mem_fresh {k j : Nat} (hk : k ∈ found) (hneeds : g.Needs k j) :
    j ∈ found ∨ j ∈ g.fresh found frontier := by
  by_cases hj : j ∈ found
  · exact .inl hj
  by_cases hfrontier : k ∈ frontier
  · exact .inr (mem_fresh_iff.mpr ⟨⟨k, hfrontier, hneeds⟩, hj⟩)
  · exact .inl (h.closed k hk hfrontier j hneeds)

/-- **One round.** What is new is all that is still to be looked at. -/
theorem round (hg : g.IsProper) :
    g.Explored (found ++ g.fresh found frontier) (g.fresh found frontier) where
  nodup := by
    refine h.nodup.append (nodup_eraseDups _) fun j hj hfresh => ?_
    exact (mem_fresh_iff.mp hfresh).2 hj
  lt_size := by
    intro j hj
    rcases List.mem_append.mp hj with hj | hj
    · exact h.lt_size j hj
    · obtain ⟨⟨k, -, hneeds⟩, -⟩ := mem_fresh_iff.mp hj
      exact hg.lt_size hneeds
  subset := List.subset_append_right _ _
  closed := by
    intro k hk hfresh j hneeds
    have hk : k ∈ found := (List.mem_append.mp hk).resolve_right hfresh
    exact List.mem_append.mpr (h.mem_or_mem_fresh hk hneeds)

/-- When as many things have been found as there are, these are all. -/
theorem mem_of_size_le (hsize : g.size ≤ found.length) {j : Nat} (hj : j < g.size) : j ∈ found := by
  have hsubset : found ⊆ List.range g.size := fun k hk => List.mem_range.mpr (h.lt_size k hk)
  have hperm : found.Perm (List.range g.size) :=
    (List.subperm_of_subset h.nodup hsubset).perm_of_length_le (by rwa [List.length_range])
  exact hperm.mem_iff.mpr (List.mem_range.mpr hj)

end Explored

/-- **Enough rounds.** What is found in the end contains what is found at any time, and what is
needed by anything in it. -/
theorem subset_closure_and_closed (hg : g.IsProper) {steps : Nat} (h : g.Explored found frontier)
    (hsteps : g.size ≤ found.length + steps) :
    found ⊆ g.closure steps found frontier ∧
      ∀ k ∈ g.closure steps found frontier, ∀ j, g.Needs k j →
        j ∈ g.closure steps found frontier := by
  induction steps generalizing found frontier with
  | zero =>
    exact ⟨List.Subset.refl _, fun k _ j hneeds => h.mem_of_size_le hsteps (hg.lt_size hneeds)⟩
  | succ steps ih =>
    rw [closure_succ]
    split
    · rename_i hempty
      rw [List.isEmpty_iff] at hempty
      refine ⟨List.Subset.refl _, fun k hk j hneeds => ?_⟩
      refine (h.mem_or_mem_fresh hk hneeds).resolve_right ?_
      rw [hempty]
      exact List.not_mem_nil
    · rename_i hnew
      have hpos : 0 < (g.fresh found frontier).length :=
        List.length_pos_iff.mpr (by simpa using hnew)
      obtain ⟨hsubset, hclosed⟩ := ih (h.round hg) (by rw [List.length_append]; omega)
      exact ⟨fun k hk => hsubset (List.mem_append_left _ hk), hclosed⟩

/-- What a search finds is needed through one or more steps, if what it starts from is. -/
theorem transGen_of_mem_closure {i : Nat} {steps : Nat} {found frontier : List Nat}
    (hfound : ∀ k ∈ found, TransGen g.Needs i k) (hfrontier : ∀ k ∈ frontier, TransGen g.Needs i k)
    {j : Nat} (h : j ∈ g.closure steps found frontier) : TransGen g.Needs i j := by
  induction steps generalizing found frontier with
  | zero => exact hfound j h
  | succ steps ih =>
    rw [closure] at h
    have hfresh : ∀ k ∈ ((frontier.flatMap g.of).filter fun j => !found.contains j).eraseDups,
        TransGen g.Needs i k := by
      intro k hk
      rw [List.mem_eraseDups, List.mem_filter, List.mem_flatMap] at hk
      obtain ⟨⟨m, hm, hmk⟩, -⟩ := hk
      exact (hfrontier m hm).tail hmk
    split at h
    · exact hfound j h
    · refine ih (fun k hk => ?_) hfresh h
      rcases List.mem_append.mp hk with hk | hk
      · exact hfound k hk
      · exact hfresh k hk

/-- **The search is complete.** It finds what is needed through one or more steps, and nothing
else. -/
theorem mem_reachable_iff (hg : g.IsProper) {i j : Nat} :
    j ∈ g.reachable i ↔ TransGen g.Needs i j := by
  have hof : ∀ k ∈ g.of i, TransGen g.Needs i k := fun k hk => .single hk
  refine ⟨transGen_of_mem_closure hof hof, fun h => ?_⟩
  have hstart : g.Explored (g.of i) (g.of i) :=
    ⟨hg.nodup i, fun k hk => hg.lt_size hk, List.Subset.refl _, fun k hk hnot => absurd hk hnot⟩
  obtain ⟨hsubset, hclosed⟩ := subset_closure_and_closed hg hstart (Nat.le_add_left _ _)
  induction h with
  | single hij => exact hsubset hij
  | tail _ hneeds ih => exact hclosed _ ih _ hneeds

theorem onCycle_iff (hg : g.IsProper) {i : Nat} : g.onCycle i = true ↔ TransGen g.Needs i i := by
  rw [onCycle, List.contains_iff_mem, mem_reachable_iff hg]

/-- **Circles are found exactly where they are.** -/
theorem isCyclic_iff (hg : g.IsProper) : g.isCyclic = true ↔ ∃ i, TransGen g.Needs i i := by
  rw [isCyclic, List.any_eq_true]
  constructor
  · rintro ⟨i, -, hi⟩
    exact ⟨i, (onCycle_iff hg).mp hi⟩
  · rintro ⟨i, hi⟩
    obtain ⟨k, hneeds, -⟩ := TransGen.head'_iff.mp hi
    exact ⟨i, List.mem_range.mpr (lt_size_of_needs hneeds), (onCycle_iff hg).mpr hi⟩

end Dependencies

end Formulary
