import Formulary.Proofs.Scanning

/-!
# Parentheses that match

The scanner takes a group as it stands and counts its parentheses. So what can stand in a group is
told by a count: the parentheses of a text match if none is closed that is not open, and none is
open in the end. Such a text is taken into a group at any depth without a change of the count, and a
group that is closed is closed by the parenthesis that matches its first one.

## Main definitions

* `openAfter?` — how many parentheses are open after a text
* `Balanced` — whether the parentheses of a text match
* `CountsMatch` — whether as many are closed as are opened, and at no place more

## Main results

* `balanced_iff_countsMatch` — parentheses match exactly when their numbers do
* `Balanced.captured` — a text whose parentheses match is taken as it stands
* `exists_of_scanFrom_group` — a group that is closed is such a text
-/

namespace Formulary

/-- How many parentheses are open after a text, if so many were open before it and none is closed
that is not open. -/
def openAfter? : (depth : Nat) → List Char → Option Nat
  | depth, [] => some depth
  | depth, c :: cs =>
    if c = '(' then openAfter? (depth + 1) cs
    else if c = ')' then if depth = 0 then none else openAfter? (depth - 1) cs
    else openAfter? depth cs

/-- Whether each parenthesis of a text has its match in it. -/
def Balanced (cs : List Char) : Prop := openAfter? 0 cs = some 0

@[simp] theorem openAfter?_nil (depth : Nat) : openAfter? depth [] = some depth := rfl

@[simp] theorem openAfter?_open (depth : Nat) (cs : List Char) :
    openAfter? depth ('(' :: cs) = openAfter? (depth + 1) cs := rfl

@[simp] theorem openAfter?_close (depth : Nat) (cs : List Char) :
    openAfter? (depth + 1) (')' :: cs) = openAfter? depth cs := rfl

theorem openAfter?_cons_of_ne {c : Char} (hopen : c ≠ '(') (hclose : c ≠ ')') (depth : Nat)
    (cs : List Char) : openAfter? depth (c :: cs) = openAfter? depth cs := by
  rw [openAfter?, if_neg hopen, if_neg hclose]

theorem openAfter?_append (depth : Nat) (cs ds : List Char) :
    openAfter? depth (cs ++ ds) = (openAfter? depth cs).bind fun d => openAfter? d ds := by
  induction cs generalizing depth with
  | nil => rfl
  | cons c cs ih =>
    rw [List.cons_append, openAfter?, openAfter?]
    split
    · exact ih _
    · split
      · split
        · rfl
        · exact ih _
      · exact ih _

/-- Parentheses that are open before a text and are not closed in it make no difference. -/
theorem openAfter?_add {depth depth' : Nat} {cs : List Char} (h : openAfter? depth cs = some depth')
    (more : Nat) : openAfter? (depth + more) cs = some (depth' + more) := by
  induction cs generalizing depth with
  | nil =>
    cases h
    rfl
  | cons c cs ih =>
    rw [openAfter?] at h ⊢
    split at h
    · rename_i hopen
      rw [if_pos hopen, Nat.add_right_comm]
      exact ih h
    · rename_i hopen
      rw [if_neg hopen]
      split at h
      · rename_i hclose
        rw [if_pos hclose]
        split at h
        · cases h
        · rename_i hdepth
          rw [if_neg (by omega), Nat.sub_add_comm (Nat.one_le_iff_ne_zero.mpr hdepth)]
          exact ih h
      · rename_i hclose
        rw [if_neg hclose]
        exact ih h

/-- A text whose parentheses match changes nothing. -/
theorem Balanced.openAfter?_append {cs : List Char} (h : Balanced cs) (depth : Nat)
    (ds : List Char) : openAfter? depth (cs ++ ds) = openAfter? depth ds := by
  have hcs := openAfter?_add h depth
  rw [Nat.zero_add] at hcs
  rw [Formulary.openAfter?_append, hcs, Option.bind_some]

theorem Balanced.append {cs ds : List Char} (hcs : Balanced cs) (hds : Balanced ds) :
    Balanced (cs ++ ds) := by
  rw [Balanced, hcs.openAfter?_append]
  exact hds

/-- Where there are no parentheses, they match. -/
theorem balanced_of_forall {cs : List Char} (h : ∀ c ∈ cs, c ≠ '(' ∧ c ≠ ')') : Balanced cs := by
  induction cs with
  | nil => rfl
  | cons c cs ih =>
    obtain ⟨hc, hcs⟩ := List.forall_mem_cons.mp h
    rw [Balanced, openAfter?_cons_of_ne hc.1 hc.2]
    exact ih hcs

theorem Balanced.parens {cs : List Char} (h : Balanced cs) : Balanced ('(' :: cs ++ [')']) := by
  rw [Balanced, List.cons_append, openAfter?_open, h.openAfter?_append]
  rfl

/-! ### Numbers of parentheses -/

/-- Whether the numbers of parentheses match: as many are closed as are opened, and at no place more
have been closed. -/
structure CountsMatch (cs : List Char) : Prop where
  /-- What is closed has been opened before. -/
  count_le : ∀ before, before <+: cs → before.count ')' ≤ before.count '('
  /-- What is opened is closed. -/
  count_eq : cs.count '(' = cs.count ')'

/-- A text has the empty beginning, and those that begin with its first character. -/
theorem forall_prefix_cons_iff {motive : List Char → Prop} {c : Char} {cs : List Char} :
    (∀ before, before <+: c :: cs → motive before) ↔
      motive [] ∧ ∀ before, before <+: cs → motive (c :: before) := by
  constructor
  · intro h
    refine ⟨h [] List.nil_prefix, fun before hbefore => ?_⟩
    exact h (c :: before) (List.cons_prefix_cons.mpr ⟨rfl, hbefore⟩)
  · rintro ⟨hnil, hcons⟩ before hbefore
    rcases List.prefix_cons_iff.mp hbefore with rfl | ⟨before, rfl, hrest⟩
    · exact hnil
    · exact hcons before hrest

/-- **Numbers tell.** After a text as many parentheses are open as the numbers say, if no beginning
of it closes more of them than there are. -/
theorem openAfter?_eq_some_iff {depth depth' : Nat} {cs : List Char} :
    openAfter? depth cs = some depth' ↔
      (∀ before, before <+: cs → before.count ')' ≤ depth + before.count '(') ∧
        depth + cs.count '(' = depth' + cs.count ')' := by
  induction cs generalizing depth with
  | nil => simp
  | cons c cs ih =>
    rw [forall_prefix_cons_iff, List.count_nil, List.count_nil, and_iff_right (Nat.zero_le _)]
    by_cases hopen : c = '('
    · subst hopen
      have hclose : '(' ≠ ')' := by decide
      rw [openAfter?_open, ih]
      simp only [List.count_cons_self, List.count_cons_of_ne hclose]
      refine and_congr (forall₂_congr fun before _ => ?_) ?_ <;> omega
    · by_cases hclose : c = ')'
      · subst hclose
        cases depth with
        | zero =>
          -- The first character closes what is not open.
          refine iff_of_false nofun fun h => ?_
          exact absurd (h.1 [] List.nil_prefix) (by decide)
        | succ depth =>
          rw [openAfter?_close, ih]
          simp only [List.count_cons_self, List.count_cons_of_ne hopen]
          refine and_congr (forall₂_congr fun before _ => ?_) ?_ <;> omega
      · rw [openAfter?_cons_of_ne hopen hclose, ih]
        simp only [List.count_cons_of_ne hopen, List.count_cons_of_ne hclose]

theorem balanced_iff_countsMatch {cs : List Char} : Balanced cs ↔ CountsMatch cs := by
  rw [Balanced, openAfter?_eq_some_iff]
  simp only [Nat.zero_add]
  exact ⟨fun h => ⟨h.1, h.2⟩, fun h => ⟨h.count_le, h.count_eq⟩⟩

/-! ### Groups -/

/-- A text is taken into a group as it stands, for as long as it does not close the group. -/
theorem scanFrom_group_append {depth depth' : Nat} {cs : List Char}
    (h : openAfter? depth cs = some depth') (hend : endMark ∉ cs) (read rest : List Char) :
    scanFrom (.group (depth + 1) (String.ofList read)) (cs ++ rest)
      = scanFrom (.group (depth' + 1) (String.ofList (read ++ cs))) rest := by
  induction cs generalizing depth read with
  | nil =>
    cases h
    rw [List.nil_append, List.append_nil]
  | cons c cs ih =>
    obtain ⟨hc, hcs⟩ := not_or.mp (mt List.mem_cons.mpr hend)
    rw [List.cons_append, List.append_cons read c cs]
    by_cases hopen : c = '('
    · subst hopen
      rw [scanFrom_cons_of_goOn (Mode.handle_group_open _ _ _)]
      exact ih h hcs _
    · by_cases hclose : c = ')'
      · subst hclose
        cases depth with
        | zero => cases h
        | succ depth =>
          rw [scanFrom_cons_of_goOn (Mode.handle_group_close _ _ _)]
          exact ih h hcs _
      · rw [openAfter?_cons_of_ne hopen hclose] at h
        rw [scanFrom_cons_of_goOn (Mode.handle_group_other _ _ _ hopen hclose (Ne.symm hc))]
        exact ih h hcs _

/-- A text whose parentheses match is taken as it stands. -/
theorem Balanced.captured {cs : List Char} (h : Balanced cs) (hend : endMark ∉ cs) :
    Captured cs := by
  intro depth read rest
  have hdepth := openAfter?_add h depth
  rw [Nat.zero_add] at hdepth
  exact scanFrom_group_append hdepth hend read rest

/-- A group that is closed before the end of the text is closed by the parenthesis that matches its
first one. -/
theorem exists_of_scanFrom_group {depth : Nat} {read : List Char} {text : List Char}
    (h : (scanFrom (.group (depth + 1) (String.ofList read)) (text ++ [endMark])).failure = none)
    (hend : endMark ∉ text) :
    ∃ g rest, text = g ++ ')' :: rest ∧ openAfter? depth g = some 0 ∧ read ++ g ≠ [] := by
  induction text generalizing depth read with
  | nil =>
    have hstep : (Mode.group (depth + 1) (String.ofList read)).handle endMark
        (([] : List Char).headD endMark)
        = .ok ⟨.group (depth + 1) (String.ofList read), none, .one⟩ := rfl
    rw [List.nil_append, scanFrom_cons_of_goOn hstep, scanFrom_nil] at h
    cases h
  | cons c cs ih =>
    obtain ⟨hc, hcs⟩ := not_or.mp (mt List.mem_cons.mpr hend)
    rw [List.cons_append] at h
    by_cases hopen : c = '('
    · subst hopen
      rw [scanFrom_cons_of_goOn (Mode.handle_group_open _ _ _)] at h
      obtain ⟨g, rest, rfl, hg, hne⟩ := ih h hcs
      exact ⟨'(' :: g, rest, rfl, hg, by simp⟩
    · by_cases hclose : c = ')'
      · subst hclose
        cases depth with
        | zero =>
          refine ⟨[], cs, rfl, rfl, ?_⟩
          rintro hread
          rw [List.append_nil] at hread
          have hstep := Mode.handle_group_end read ((cs ++ [endMark]).headD endMark)
          rw [hread] at hstep h
          rw [scanFrom_cons_of_error hstep] at h
          cases h
        | succ depth =>
          rw [scanFrom_cons_of_goOn (Mode.handle_group_close _ _ _)] at h
          obtain ⟨g, rest, rfl, hg, hne⟩ := ih h hcs
          exact ⟨')' :: g, rest, rfl, hg, by simp⟩
      · rw [scanFrom_cons_of_goOn (Mode.handle_group_other _ _ _ hopen hclose (Ne.symm hc))] at h
        obtain ⟨g, rest, rfl, hg, hne⟩ := ih h hcs
        exact ⟨c :: g, rest, rfl, by rw [openAfter?_cons_of_ne hopen hclose, hg], by simp⟩

end Formulary
