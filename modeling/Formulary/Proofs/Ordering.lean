import Formulary.Dependencies
import Mathlib.Data.Finset.Card
import Mathlib.Data.Finset.Range
import Mathlib.Data.List.Perm.Basic
import Mathlib.Logic.Relation

/-!
# Orders of dependent things

Numbers are all that the search for an order keeps: how many dependencies of each thing have no
place yet. What makes the numbers enough is that the dependencies of a thing are listed once each,
so that a thing which gets a place lowers the number of everything that needs it by one, and the
number is zero exactly when everything that is needed has a place.

The search stops early when nothing is ready. Then each thing without a place needs another one, and
with finitely many things that is a circle. So where there is no circle, everything gets a place.

## Main definitions

* `Dependencies.IsProper` — dependencies are among the things, and listed once each
* `Dependencies.Progress.Sound` — what holds after each step of the search

## Main results

* `wellFounded_of_acyclic` — without circles, a bounded relation is well-founded
* `existsUnique_eq_of_local` — what is told by what is smaller is told in one way
* `sound_place` — each step keeps what holds
* `order_perm` — without circles the order has everything in it once
* `mem_before_of_order_eq` — and everything after what it needs
-/

namespace Formulary

open Relation

/-- Where nothing in a bounded relation leads back to itself, through however many steps, there is
no infinite chain: what a thing leads to has fewer things below it. -/
theorem wellFounded_of_acyclic {r : Nat → Nat → Prop} {size : Nat}
    (hlt : ∀ {i j}, r i j → j < size) (h : ∀ i, ¬ TransGen r i i) :
    WellFounded fun j i => r i j := by
  classical
  let below (i : Nat) : Finset Nat := (Finset.range size).filter (TransGen r i)
  refine Subrelation.wf (r := fun j i => (below j).card < (below i).card) ?_
    (measure fun i => (below i).card).wf
  intro j i hij
  refine Finset.card_lt_card ((Finset.ssubset_iff_of_subset ?_).mpr ⟨j, ?_, ?_⟩)
  · intro k hk
    rw [Finset.mem_filter] at hk ⊢
    exact ⟨hk.1, .head hij hk.2⟩
  · exact Finset.mem_filter.mpr ⟨Finset.mem_range.mpr (hlt hij), .single hij⟩
  · rw [Finset.mem_filter]
    exact fun hj => h j hj.2

/-- A function of results that looks at smaller places only has one fixed point. -/
theorem existsUnique_eq_of_local {ι α : Type} [Inhabited α] {r : ι → ι → Prop}
    (hr : WellFounded r) {F : (ι → α) → ι → α}
    (hlocal : ∀ f g i, (∀ j, r j i → f j = g j) → F f i = F g i) : ∃! f, ∀ i, f i = F f i := by
  classical
  let step (i : ι) (ih : ∀ j, r j i → α) : α := F (fun j => if h : r j i then ih j h else default) i
  refine ⟨hr.fix step, fun i => ?_, fun f hf => ?_⟩
  · rw [hr.fix_eq]
    refine hlocal _ _ i fun j hj => ?_
    rw [dif_pos hj]
  · funext i
    induction i using hr.induction with
    | _ i ih =>
      rw [hf, hr.fix_eq]
      refine hlocal _ _ i fun j hj => ?_
      rw [dif_pos hj, ih j hj]

theorem nodup_eraseDups : ∀ l : List Nat, l.eraseDups.Nodup
  | [] => List.nodup_nil
  | a :: l => by
    rw [List.eraseDups_cons, List.nodup_cons]
    exact ⟨by simp [List.mem_eraseDups], nodup_eraseDups _⟩
termination_by l => l.length
decreasing_by exact Nat.lt_succ_of_le (List.length_filter_le _ _)

namespace Dependencies

variable {g : Dependencies}

/-- Dependencies that make sense: on things that there are, each listed once. -/
structure IsProper (g : Dependencies) : Prop where
  nodup : ∀ i, (g.of i).Nodup
  lt_size : ∀ {i j}, g.Needs i j → j < g.size

theorem lt_size_of_needs {i j : Nat} (h : g.Needs i j) : i < g.size := by
  by_contra hi
  have hof : g.of i = [] := by
    rw [of, List.getD_eq_getElem?_getD, List.getElem?_eq_none (Nat.not_lt.mp hi), Option.getD_none]
  rw [Needs, hof] at h
  exact absurd h List.not_mem_nil

theorem needs_iff {i j : Nat} : g.needs i j = true ↔ g.Needs i j := by
  rw [needs, Needs, List.contains_iff_mem]

/-! ### One step of the search -/

/-- What holds of the progress of a search. The number for each thing is that of its dependencies
without a place; what is ready is what has no place and needs nothing without one; and everything
has a place after what it needs. -/
structure Progress.Sound (g : Dependencies) (s : Progress) : Prop where
  nodup_placed : s.placed.Nodup
  lt_size : ∀ i ∈ s.placed, i < g.size
  ordered : ∀ {before i after}, s.placed = before ++ i :: after → ∀ j, g.Needs i j → j ∈ before
  length_waiting : s.waiting.length = g.size
  waiting : ∀ i < g.size, s.waiting.getD i 0 = (g.of i).countP (· ∉ s.placed)
  nodup_ready : s.ready.Nodup
  mem_ready : ∀ i, i ∈ s.ready ↔ i < g.size ∧ i ∉ s.placed ∧ ∀ j, g.Needs i j → j ∈ s.placed

theorem sound_start (g : Dependencies) : Progress.Sound g g.start where
  nodup_placed := List.nodup_nil
  lt_size := by
    intro i hi
    cases hi
  ordered := by
    intro before i after h
    exact absurd h (by simp [start])
  length_waiting := by simp [start, size]
  waiting := by
    intro i hi
    have hi' : i < g.lists.length := hi
    simp [start, of, List.getD_eq_getElem?_getD, hi']
  nodup_ready := List.nodup_range.filter _
  mem_ready := by
    intro i
    simp [start, Needs, List.eq_nil_iff_forall_not_mem]

/-- One more place means one listed thing less without a place, if it is listed. -/
theorem countP_notMem_append {l placed : List Nat} (hl : l.Nodup) {i : Nat} (hi : i ∉ placed) :
    l.countP (· ∉ placed) = l.countP (· ∉ placed ++ [i]) + if i ∈ l then 1 else 0 := by
  induction l with
  | nil => rfl
  | cons j l ih =>
    obtain ⟨hj, hl⟩ := List.nodup_cons.mp hl
    rw [List.countP_cons, List.countP_cons, ih hl]
    by_cases hji : j = i
    · subst hji
      simp [hi, hj]
    · have hij : i ≠ j := fun h => hji h.symm
      by_cases hmem : i ∈ l <;> by_cases hplaced : j ∈ placed <;> simp [hji, hij, hmem, hplaced]

theorem countP_notMem_eq_zero {l placed : List Nat} :
    l.countP (· ∉ placed) = 0 ↔ ∀ j ∈ l, j ∈ placed := by
  simp [List.countP_eq_zero]

theorem getD_waiting_place {s : Progress} {i d : Nat} (hd : d < s.waiting.length) :
    (g.place s i).waiting.getD d 0
      = if g.needs d i then s.waiting.getD d 0 - 1 else s.waiting.getD d 0 := by
  simp [place, List.getD_eq_getElem?_getD, List.getElem?_mapIdx, hd]

theorem mem_ready_place {s : Progress} (hs : s.ready.Nodup) {i d : Nat} :
    d ∈ (g.place s i).ready ↔
      d ≠ i ∧ d ∈ s.ready ∨ d < g.size ∧ g.Needs d i ∧ (g.place s i).waiting.getD d 0 = 0 := by
  have hready : (g.place s i).ready = s.ready.erase i ++
      (List.range g.size).filter fun d =>
        g.needs d i && (g.place s i).waiting.getD d 0 == 0 := rfl
  rw [hready, List.mem_append, hs.mem_erase_iff, List.mem_filter, List.mem_range, Bool.and_eq_true,
    needs_iff, beq_iff_eq]

namespace Progress.Sound

variable {s : Progress} (hs : s.Sound g) {i : Nat}

include hs

/-- The numbers count the new place. -/
theorem waiting_place (hg : g.IsProper) (hi : i ∉ s.placed) {d : Nat} (hd : d < g.size) :
    (g.place s i).waiting.getD d 0 = (g.of d).countP (· ∉ s.placed ++ [i]) := by
  have hcount := countP_notMem_append (hg.nodup d) hi
  rw [getD_waiting_place (by rw [hs.length_waiting]; exact hd), hs.waiting d hd, hcount]
  by_cases hdi : i ∈ g.of d
  · rw [if_pos (needs_iff.mpr hdi), if_pos hdi]
    omega
  · rw [if_neg (fun h => hdi (needs_iff.mp h)), if_neg hdi]
    omega

/-- Something with a place needs nothing without one. -/
theorem not_needs_of_mem_placed (hi : i ∉ s.placed) {d : Nat} (hd : d ∈ s.placed) :
    ¬ g.Needs d i := by
  intro hneeds
  obtain ⟨before, after, heq⟩ := List.append_of_mem hd
  have := hs.ordered heq i hneeds
  exact hi (by rw [heq]; exact List.mem_append_left _ this)

/-- What needs only what has a place may have the next one. -/
theorem ordered_concat (hi : ∀ j, g.Needs i j → j ∈ s.placed) {before after : List Nat} {d : Nat}
    (heq : s.placed ++ [i] = before ++ d :: after) {j : Nat} (hneeds : g.Needs d j) :
    j ∈ before := by
  rcases List.eq_nil_or_concat after with rfl | ⟨after, last, rfl⟩
  · obtain ⟨rfl, hd⟩ := List.append_inj' heq rfl
    obtain rfl : i = d := List.singleton_inj.mp hd
    exact hi j hneeds
  · have hassoc : before ++ d :: after.concat last = (before ++ d :: after) ++ [last] := by simp
    rw [hassoc] at heq
    exact hs.ordered (List.append_inj' heq rfl).1 j hneeds

/-- Ready are now those that were, and those that were waiting for the new place alone. -/
theorem mem_ready_place_iff (hg : g.IsProper) (hi : i ∈ s.ready) {d : Nat} :
    d ∈ (g.place s i).ready ↔
      d < g.size ∧ d ∉ s.placed ++ [i] ∧ ∀ j, g.Needs d j → j ∈ s.placed ++ [i] := by
  obtain ⟨-, hiplaced, hineeds⟩ := (hs.mem_ready i).mp hi
  rw [mem_ready_place hs.nodup_ready, hs.mem_ready]
  constructor
  · rintro (⟨hne, hdsize, hdplaced, hdneeds⟩ | ⟨hdsize, hneeds, hzero⟩)
    · refine ⟨hdsize, ?_, fun j hj => List.mem_append_left _ (hdneeds j hj)⟩
      rw [List.mem_append, List.mem_singleton]
      rintro (h | h)
      · exact hdplaced h
      · exact hne h
    · rw [hs.waiting_place hg hiplaced hdsize, countP_notMem_eq_zero] at hzero
      refine ⟨hdsize, ?_, hzero⟩
      rw [List.mem_append, List.mem_singleton]
      rintro (h | rfl)
      · exact hs.not_needs_of_mem_placed hiplaced h hneeds
      · exact hiplaced (hineeds d hneeds)
  · rintro ⟨hdsize, hdplaced, hdneeds⟩
    rw [List.mem_append, List.mem_singleton, not_or] at hdplaced
    by_cases hneeds : g.Needs d i
    · refine .inr ⟨hdsize, hneeds, ?_⟩
      rw [hs.waiting_place hg hiplaced hdsize, countP_notMem_eq_zero]
      exact hdneeds
    · refine .inl ⟨hdplaced.2, hdsize, hdplaced.1, fun j hj => ?_⟩
      rcases List.mem_append.mp (hdneeds j hj) with h | h
      · exact h
      · exact absurd (List.mem_singleton.mp h ▸ hj) hneeds

/-- Nothing becomes ready twice: what was ready was not waiting for the new place. -/
theorem nodup_ready_place (hi : i ∉ s.placed) : (g.place s i).ready.Nodup := by
  refine (hs.nodup_ready.erase i).append (List.nodup_range.filter _) ?_
  intro d hd hd'
  have hdneeds := ((hs.mem_ready d).mp (List.mem_of_mem_erase hd)).2.2
  rw [List.mem_filter, Bool.and_eq_true] at hd'
  exact hi (hdneeds i (needs_iff.mp hd'.2.1))

end Progress.Sound

/-- **Each step keeps what holds.** A thing that is ready may have the next place. -/
theorem sound_place (hg : g.IsProper) {s : Progress} (hs : s.Sound g) {i : Nat}
    (hi : i ∈ s.ready) : (g.place s i).Sound g := by
  obtain ⟨hisize, hiplaced, hineeds⟩ := (hs.mem_ready i).mp hi
  have hplaced : (g.place s i).placed = s.placed ++ [i] := rfl
  refine
    { nodup_placed := ?_
      lt_size := ?_
      ordered := fun heq _ hneeds => hs.ordered_concat hineeds heq hneeds
      length_waiting := ?_
      waiting := fun _ hd => hs.waiting_place hg hiplaced hd
      nodup_ready := hs.nodup_ready_place hiplaced
      mem_ready := fun _ => hs.mem_ready_place_iff hg hi }
  · rw [hplaced]
    refine hs.nodup_placed.append (List.nodup_singleton i) ?_
    rw [List.disjoint_singleton]
    exact hiplaced
  · intro j hj
    rw [hplaced, List.mem_append, List.mem_singleton] at hj
    rcases hj with hj | rfl
    · exact hs.lt_size j hj
    · exact hisize
  · simp [place, hs.length_waiting]

/-! ### The whole search -/

theorem mem_of_first? {before : Nat → Nat → Bool} {l : List Nat} {i : Nat}
    (h : first? before l = some i) : i ∈ l := by
  induction l generalizing i with
  | nil => cases h
  | cons k rest ih =>
    rw [first?] at h
    split at h
    · rw [Option.some.inj h]
      exact List.mem_cons_self
    · rename_i j hj
      split at h
      · rw [← Option.some.inj h]
        exact List.mem_cons_of_mem _ (ih hj)
      · rw [Option.some.inj h]
        exact List.mem_cons_self

theorem eq_nil_of_first? {before : Nat → Nat → Bool} {l : List Nat}
    (h : first? before l = none) : l = [] := by
  cases l with
  | nil => rfl
  | cons k rest =>
    rw [first?] at h
    split at h
    · cases h
    · split at h <;> cases h

/-- The search keeps what holds, and ends with nothing ready unless it runs out of steps. -/
theorem sound_advance (hg : g.IsProper) (before : Nat → Nat → Bool) (steps : Nat) {s : Progress}
    (hs : s.Sound g) : (g.advance before steps s).Sound g ∧
      ((g.advance before steps s).ready = [] ∨
        (g.advance before steps s).placed.length = s.placed.length + steps) := by
  induction steps generalizing s with
  | zero => exact ⟨hs, .inr rfl⟩
  | succ steps ih =>
    rw [advance]
    split
    · rename_i h
      exact ⟨hs, .inl (eq_nil_of_first? h)⟩
    · rename_i i hi
      obtain ⟨hsound, hend⟩ := ih (sound_place hg hs (mem_of_first? hi))
      refine ⟨hsound, hend.imp_right fun hlength => ?_⟩
      rw [hlength, place, List.length_append, List.length_singleton]
      omega

/-- When nothing is ready and there is no circle, everything has a place. -/
theorem mem_placed_of_ready_eq_nil (hg : g.IsProper) (hacyclic : ∀ i, ¬ TransGen g.Needs i i)
    {s : Progress} (hs : s.Sound g) (hready : s.ready = []) {i : Nat} (hi : i < g.size) :
    i ∈ s.placed := by
  induction i using (wellFounded_of_acyclic hg.lt_size hacyclic).induction with
  | _ i ih =>
    by_contra hplaced
    have hmem : i ∈ s.ready :=
      (hs.mem_ready i).mpr ⟨hi, hplaced, fun j hj => ih j hj (hg.lt_size hj)⟩
    rw [hready] at hmem
    cases hmem

/-- What has a place is among the things. -/
theorem Progress.Sound.placed_subset {s : Progress} (hs : s.Sound g) :
    s.placed ⊆ List.range g.size :=
  fun i hi => List.mem_range.mpr (hs.lt_size i hi)

/-- A search that has made as many steps as there are things ends with nothing ready: what is ready
would need a place besides all of them. -/
theorem ready_advance_start (hg : g.IsProper) (before : Nat → Nat → Bool) :
    (g.advance before g.size g.start).ready = [] := by
  obtain ⟨hs, hready | hlength⟩ := sound_advance hg before g.size (sound_start g)
  · exact hready
  · have hperm := (List.subperm_of_subset hs.nodup_placed hs.placed_subset).perm_of_length_le
      (by rw [hlength, List.length_range]; exact Nat.le_add_left _ _)
    refine List.eq_nil_iff_forall_not_mem.mpr fun i hi => ?_
    obtain ⟨hisize, hiplaced, -⟩ := (hs.mem_ready i).mp hi
    exact hiplaced (hperm.mem_iff.mpr (List.mem_range.mpr hisize))

/-- When nothing is ready and there is no circle, everything has one place. -/
theorem Progress.Sound.perm_of_ready_eq_nil {s : Progress} (hs : s.Sound g) (hg : g.IsProper)
    (hacyclic : ∀ i, ¬ TransGen g.Needs i i) (hready : s.ready = []) :
    s.placed.Perm (List.range g.size) := by
  refine (List.perm_ext_iff_of_nodup hs.nodup_placed List.nodup_range).mpr fun i => ?_
  exact ⟨fun h => hs.placed_subset h,
    fun h => mem_placed_of_ready_eq_nil hg hacyclic hs hready (List.mem_range.mp h)⟩

/-- **Everything has one place.** Without circles the order is one of all things. -/
theorem order_perm (hg : g.IsProper) (hacyclic : ∀ i, ¬ TransGen g.Needs i i)
    (before : Nat → Nat → Bool) : (g.order before).Perm (List.range g.size) :=
  (sound_advance hg before g.size (sound_start g)).1.perm_of_ready_eq_nil hg hacyclic
    (ready_advance_start hg before)

/-- **What is needed comes first.** Everything in the order comes after what it needs. -/
theorem mem_before_of_order_eq (hg : g.IsProper) {prefers : Nat → Nat → Bool}
    {before after : List Nat} {i : Nat} (h : g.order prefers = before ++ i :: after) {j : Nat}
    (hneeds : g.Needs i j) : j ∈ before :=
  (sound_advance hg prefers g.size (sound_start g)).1.ordered h j hneeds

end Dependencies

end Formulary
