import Formulary.Proofs.Climbing
import Formulary.Proofs.Generated
import Mathlib.Data.List.Nodup

/-!
# What stands on the left of an operator

An operator between operands lets out the operators on top of the stack that bind at least as
tightly, and stops at the first one that does not. So what it is applied to on its left is what has
been written since the nearest operator that binds less tightly, whether that one stands between
operands or before its operand: everything since then is arranged by itself, as if it were a text of
its own.

Operators of one precedence therefore group from the left, unless an operator that binds less
tightly stands between them. Operators before their operands bind more tightly than all operators
between operands but the arrow, so they are in nobody's way but the arrow's. In `a->-b->c` the sign
takes `b->c`, and the first arrow takes what the sign makes of it.

A program shows operators without telling two of one symbol apart. `arrangePlacedOnto` is the
arrangement of tokens that carry their places in the text, and without the places it is the
arrangement itself.

## Main definitions

* `arrangePlacedOnto`, `placedProgram` — the arrangement of tokens with their places
* `Operates` — the two pieces of a program to whose values an operator is applied
* `JoinsLeft` — whether an operator belongs to the left operand of another one
* `SamePrecedence` — two operators of one precedence, and none between operands between them that
  binds less tightly

## Main results

* `exists_operates` — a left operand begins after the nearest operator that binds less tightly
* `Operates.unique` — the operands of an operator are determined
* `joinsLeft_iff` — operators of one precedence associate to the left, arrows unless an operator
  stands before an operand between them
-/

namespace Formulary

/-! ### Places -/

/-- An operator with its place, as a token with its place. -/
def Operator.placed (w : Operator × Nat) : Token × Nat := (.operator w.1, w.2)

/-- Whether an operator between operands lets out one that waits. -/
def Operator.letsOut (op : Operator) (top : Operator × Nat) : Bool :=
  op.precedence ≤ top.1.precedence

/-- The tokens in execution order, each with its place. -/
def arrangePlacedOnto :
    (stack : List (Operator × Nat)) → List (Token × Nat) → List (Token × Nat)
  | stack, [] => stack.map Operator.placed
  | stack, (.operator op, i) :: rest =>
    if op.isPrefix then arrangePlacedOnto ((op, i) :: stack) rest
    else
      (stack.takeWhile op.letsOut).map Operator.placed
        ++ arrangePlacedOnto ((op, i) :: stack.dropWhile op.letsOut) rest
  | stack, operand :: rest => operand :: arrangePlacedOnto stack rest

/-- The program of a list of tokens, each with its place in the list. -/
def placedProgram (tokens : List Token) : List (Token × Nat) :=
  arrangePlacedOnto [] tokens.zipIdx

theorem arrangePlacedOnto_operand {t : Token} (ht : t.isOperand = true)
    (stack : List (Operator × Nat)) (i : Nat) (rest : List (Token × Nat)) :
    arrangePlacedOnto stack ((t, i) :: rest) = (t, i) :: arrangePlacedOnto stack rest := by
  cases t with
  | operator op => cases ht
  | constant c => rfl
  | reference name => rfl
  | group name provider source tokens program => rfl

theorem arrangePlacedOnto_wait {op : Operator} (h : op.isPrefix = true)
    (stack : List (Operator × Nat)) (i : Nat) (rest : List (Token × Nat)) :
    arrangePlacedOnto stack ((.operator op, i) :: rest)
      = arrangePlacedOnto ((op, i) :: stack) rest := by
  rw [arrangePlacedOnto, if_pos h]

theorem arrangePlacedOnto_between {op : Operator} (h : op.isPrefix = false)
    (stack : List (Operator × Nat)) (i : Nat) (rest : List (Token × Nat)) :
    arrangePlacedOnto stack ((.operator op, i) :: rest)
      = (stack.takeWhile op.letsOut).map Operator.placed
        ++ arrangePlacedOnto ((op, i) :: stack.dropWhile op.letsOut) rest := by
  rw [arrangePlacedOnto, if_neg (by simp [h])]

/-- Arranging goes through the tokens with the stack that it has at each of them. -/
@[elab_as_elim]
theorem arrangePlacedOnto_induction {motive : List (Operator × Nat) → List (Token × Nat) → Prop}
    (nil : ∀ stack, motive stack [])
    (operand : ∀ stack t i rest, t.isOperand = true → motive stack rest →
      motive stack ((t, i) :: rest))
    (wait : ∀ stack op i rest, op.isPrefix = true → motive ((op, i) :: stack) rest →
      motive stack ((.operator op, i) :: rest))
    (between : ∀ stack op i rest, op.isPrefix = false →
      motive ((op, i) :: stack.dropWhile op.letsOut) rest →
      motive stack ((.operator op, i) :: rest))
    (stack : List (Operator × Nat)) (tokens : List (Token × Nat)) : motive stack tokens := by
  induction tokens generalizing stack with
  | nil => exact nil stack
  | cons first rest ih =>
    obtain ⟨t, i⟩ := first
    rcases t.isOperand_or_eq_operator with ht | ⟨op, rfl⟩
    · exact operand stack t i rest ht (ih stack)
    · cases hop : op.isPrefix with
      | true => exact wait stack op i rest hop (ih _)
      | false => exact between stack op i rest hop (ih _)

/-- Without the places it is the arrangement. -/
theorem map_fst_arrangePlacedOnto (stack : List (Operator × Nat)) (tokens : List (Token × Nat)) :
    (arrangePlacedOnto stack tokens).map Prod.fst
      = arrangeOnto (stack.map Prod.fst) (tokens.map Prod.fst) := by
  induction stack, tokens using arrangePlacedOnto_induction with
  | nil stack => simp [arrangePlacedOnto, arrangeOnto, Operator.placed]
  | operand stack t i rest ht ih =>
    rw [arrangePlacedOnto_operand ht, List.map_cons, List.map_cons, arrangeOnto_cons_operand ht, ih]
  | wait stack op i rest hop ih =>
    rw [arrangePlacedOnto_wait hop, List.map_cons, arrangeOnto_wait hop, ih]
    rfl
  | between stack op i rest hop ih =>
    have hletsOut : op.letsOut = fun top => decide (op.precedence ≤ top.1.precedence) := rfl
    rw [arrangePlacedOnto_between hop, List.map_append, ih, hletsOut]
    simp [arrangeOnto, hop, List.takeWhile_map, List.dropWhile_map, Operator.placed,
      Function.comp_def]

/-- The arrangement has the tokens with their places, in another order. -/
theorem arrangePlacedOnto_perm (stack : List (Operator × Nat)) (tokens : List (Token × Nat)) :
    (arrangePlacedOnto stack tokens).Perm (stack.map Operator.placed ++ tokens) := by
  induction stack, tokens using arrangePlacedOnto_induction with
  | nil stack => simp [arrangePlacedOnto]
  | operand stack t i rest ht ih =>
    rw [arrangePlacedOnto_operand ht]
    exact (ih.cons _).trans List.perm_middle.symm
  | wait stack op i rest hop ih =>
    rw [arrangePlacedOnto_wait hop]
    exact ih.trans List.perm_middle.symm
  | between stack op i rest hop ih =>
    rw [arrangePlacedOnto_between hop]
    refine (ih.append_left _).trans ?_
    rw [List.map_cons, List.cons_append]
    refine List.perm_middle.trans ?_
    rw [← List.append_assoc, ← List.map_append, List.takeWhile_append_dropWhile]
    exact List.perm_middle.symm

theorem mem_arrangePlacedOnto_nil {tokens : List (Token × Nat)} {t : Token × Nat} :
    t ∈ arrangePlacedOnto [] tokens ↔ t ∈ tokens := by
  simpa using (arrangePlacedOnto_perm [] tokens).mem_iff (a := t)

theorem placedProgram_perm (tokens : List Token) : (placedProgram tokens).Perm tokens.zipIdx := by
  simpa [placedProgram] using arrangePlacedOnto_perm [] tokens.zipIdx

theorem map_fst_placedProgram (tokens : List Token) :
    (placedProgram tokens).map Prod.fst = arrangeOnto [] tokens := by
  rw [placedProgram, map_fst_arrangePlacedOnto, List.zipIdx_map_fst]
  rfl

/-- Every place is filled once. -/
theorem nodup_placedProgram (tokens : List Token) : (placedProgram tokens).Nodup := by
  refine (placedProgram_perm tokens).nodup_iff.mpr (List.Nodup.of_map Prod.snd ?_)
  rw [List.zipIdx_map_snd]
  exact List.nodup_range'

/-! ### Pieces of arrangements -/

/-- Tokens among which no operator binds less tightly than `bound`. -/
def Tight (bound : Nat) (tokens : List (Token × Nat)) : Prop :=
  ∀ op i, (.operator op, i) ∈ tokens → bound ≤ op.precedence

theorem Tight.of_cons {bound : Nat} {first : Token × Nat} {rest : List (Token × Nat)}
    (h : Tight bound (first :: rest)) : Tight bound rest :=
  fun op i hmem => h op i (List.mem_cons_of_mem _ hmem)

theorem Tight.append {bound : Nat} {l m : List (Token × Nat)} (hl : Tight bound l)
    (hm : Tight bound m) : Tight bound (l ++ m) :=
  fun op i hmem => (List.mem_append.mp hmem).elim (hl op i) (hm op i)

/-- What is let out from the top of a stack is let out above what is held. -/
theorem takeWhile_dropWhile_append_of_head {α : Type} (good : α → Bool) (l : List α)
    {rest : List α} (h : ∀ a ∈ rest.head?, good a = false) :
    (l ++ rest).takeWhile good = l.takeWhile good ∧
      (l ++ rest).dropWhile good = l.dropWhile good ++ rest := by
  cases rest with
  | nil => simp
  | cons a rest => exact takeWhile_dropWhile_append_cons good (h a rfl) l rest

/-- What is held protects what is below it. -/
theorem takeWhile_dropWhile_append_of_mem {α : Type} (good : α → Bool) {l : List α} {a : α}
    (hmem : a ∈ l) (ha : good a = false) (rest : List α) :
    (l ++ rest).takeWhile good = l.takeWhile good ∧
      (l ++ rest).dropWhile good = l.dropWhile good ++ rest := by
  obtain ⟨upper, lower, rfl⟩ := List.append_of_mem hmem
  obtain ⟨htake, hdrop⟩ := takeWhile_dropWhile_append_cons good ha upper lower
  obtain ⟨htake', hdrop'⟩ := takeWhile_dropWhile_append_cons good ha upper (lower ++ rest)
  rw [htake, hdrop, List.append_assoc, List.cons_append, htake', hdrop', List.append_assoc,
    List.cons_append]
  exact ⟨rfl, rfl⟩

/-- **An operator cuts the tokens in two** after an operator that binds less tightly, provided that
all that stands between the two binds at least as tightly: what stands between is arranged by
itself. -/
theorem arrangePlacedOnto_append_operator {op : Operator} (hop : op.isPrefix = false)
    {above below : List (Operator × Nat)}
    (habove : ∀ top ∈ above, op.precedence ≤ top.1.precedence)
    (hbelow : ∀ top ∈ below.head?, top.1.precedence < op.precedence)
    {middle : List (Token × Nat)} (hmiddle : Tight op.precedence middle) (j : Nat)
    (after : List (Token × Nat)) :
    arrangePlacedOnto (above ++ below) (middle ++ (.operator op, j) :: after)
      = arrangePlacedOnto above middle ++ arrangePlacedOnto ((op, j) :: below) after := by
  induction above, middle using arrangePlacedOnto_induction with
  | nil above =>
    obtain ⟨htake, hdrop⟩ := takeWhile_dropWhile_append_of_head op.letsOut above
      fun top htop => decide_eq_false (Nat.not_le.mpr (hbelow top htop))
    have hall : ∀ top ∈ above, op.letsOut top = true :=
      fun top htop => decide_eq_true (habove top htop)
    rw [List.nil_append, arrangePlacedOnto_between hop, htake, hdrop,
      List.takeWhile_eq_self_iff.mpr hall, List.dropWhile_eq_nil_iff.mpr hall, arrangePlacedOnto,
      List.nil_append]
  | operand above t i rest ht ih =>
    rw [List.cons_append, arrangePlacedOnto_operand ht, arrangePlacedOnto_operand ht,
      ih habove hmiddle.of_cons, List.cons_append]
  | wait above other i rest hother ih =>
    have hleft : ∀ top ∈ (other, i) :: above, op.precedence ≤ top.1.precedence :=
      List.forall_mem_cons.mpr ⟨hmiddle other i List.mem_cons_self, habove⟩
    rw [List.cons_append, arrangePlacedOnto_wait hother, arrangePlacedOnto_wait hother,
      ← List.cons_append, ih hleft hmiddle.of_cons]
  | between above other i rest hother ih =>
    -- What is let out is let out from above, since `other` binds at least as tightly as `op`.
    have hle : op.precedence ≤ other.precedence := hmiddle other i List.mem_cons_self
    obtain ⟨htake, hdrop⟩ := takeWhile_dropWhile_append_of_head other.letsOut above
      fun top htop => decide_eq_false (Nat.not_le.mpr (Nat.lt_of_lt_of_le (hbelow top htop) hle))
    have hleft : ∀ top ∈ (other, i) :: above.dropWhile other.letsOut,
        op.precedence ≤ top.1.precedence :=
      List.forall_mem_cons.mpr
        ⟨hle, fun top htop => habove top ((List.dropWhile_sublist _).subset htop)⟩
    rw [List.cons_append, arrangePlacedOnto_between hother, arrangePlacedOnto_between hother, htake,
      hdrop, ← List.cons_append, ih hleft hmiddle.of_cons, List.append_assoc]

/-- An operator that does not let out all of a stack down to `w` leaves `w` where it is. -/
theorem takeWhile_dropWhile_append_cons_of_not_forall {α : Type} (good : α → Bool) {w : α}
    {above : List α} (h : ¬ ∀ a ∈ above ++ [w], good a = true) (below : List α) :
    (above ++ w :: below).takeWhile good = above.takeWhile good ∧
      (above ++ w :: below).dropWhile good = above.dropWhile good ++ w :: below := by
  obtain ⟨a, hmem, ha⟩ := not_forall₂.mp h
  rw [Bool.not_eq_true] at ha
  rcases List.mem_append.mp hmem with hmem | hmem
  · exact takeWhile_dropWhile_append_of_mem good hmem ha (w :: below)
  · rw [List.mem_singleton.mp hmem] at ha
    exact takeWhile_dropWhile_append_cons good ha above below

/-- **A waiting operator comes out** after what stands above it and some of the tokens, the rest of
which begins with the operator between operands that lets it out. -/
theorem exists_arrangePlacedOnto_eq_append (w : Operator × Nat)
    (above below : List (Operator × Nat)) (tokens : List (Token × Nat)) :
    ∃ read rest, tokens = read ++ rest ∧
      (∀ t ∈ rest.head?, ∃ op, t.1 = .operator op ∧ op.isPrefix = false) ∧
      arrangePlacedOnto (above ++ w :: below) tokens
        = arrangePlacedOnto above read ++ Operator.placed w :: arrangePlacedOnto below rest := by
  induction above, tokens using arrangePlacedOnto_induction with
  | nil above => exact ⟨[], [], rfl, by simp, by simp [arrangePlacedOnto]⟩
  | operand above t i rest ht ih =>
    obtain ⟨read, rest', rfl, hrest, heq⟩ := ih
    refine ⟨(t, i) :: read, rest', rfl, hrest, ?_⟩
    rw [arrangePlacedOnto_operand ht, arrangePlacedOnto_operand ht, heq, List.cons_append]
  | wait above op i rest hop ih =>
    obtain ⟨read, rest', rfl, hrest, heq⟩ := ih
    refine ⟨(.operator op, i) :: read, rest', rfl, hrest, ?_⟩
    rw [arrangePlacedOnto_wait hop, arrangePlacedOnto_wait hop, ← heq, List.cons_append]
  | between above op i rest hop ih =>
    by_cases hall : ∀ top ∈ above ++ [w], op.letsOut top = true
    · -- The operator lets out everything above, and `w` with it.
      refine ⟨[], (.operator op, i) :: rest, rfl, by rintro _ ⟨⟩; exact ⟨op, rfl, hop⟩, ?_⟩
      have hsplit : above ++ w :: below = (above ++ [w]) ++ below := by simp
      rw [arrangePlacedOnto_between hop, arrangePlacedOnto_between hop, hsplit,
        List.takeWhile_append_of_pos hall, List.dropWhile_append_of_pos hall]
      simp [arrangePlacedOnto]
    · -- Something above `w`, or `w` itself, holds the operator up.
      obtain ⟨htake, hdrop⟩ :=
        takeWhile_dropWhile_append_cons_of_not_forall op.letsOut hall below
      obtain ⟨read, rest', rfl, hrest, heq⟩ := ih
      refine ⟨(.operator op, i) :: read, rest', rfl, hrest, ?_⟩
      rw [arrangePlacedOnto_between hop, arrangePlacedOnto_between hop, htake, hdrop,
        ← List.cons_append, heq, List.append_assoc]

/-- After some tokens, whatever comes after them, some operators are out and the others wait. -/
theorem exists_arrangePlacedOnto_append (stack : List (Operator × Nat))
    (tokens : List (Token × Nat)) :
    ∃ out below, ∀ rest,
      arrangePlacedOnto stack (tokens ++ rest) = out ++ arrangePlacedOnto below rest := by
  induction stack, tokens using arrangePlacedOnto_induction with
  | nil stack => exact ⟨[], stack, fun rest => rfl⟩
  | operand stack t i tokens ht ih =>
    obtain ⟨out, below, h⟩ := ih
    exact ⟨(t, i) :: out, below, fun rest => by
      rw [List.cons_append, arrangePlacedOnto_operand ht, h, List.cons_append]⟩
  | wait stack op i tokens hop ih =>
    obtain ⟨out, below, h⟩ := ih
    exact ⟨out, below, fun rest => by rw [List.cons_append, arrangePlacedOnto_wait hop, h]⟩
  | between stack op i tokens hop ih =>
    obtain ⟨out, below, h⟩ := ih
    exact ⟨(stack.takeWhile op.letsOut).map Operator.placed ++ out, below, fun rest => by
      rw [List.cons_append, arrangePlacedOnto_between hop, h, List.append_assoc]⟩

/-- An operator that has just been read is on top of the stack. -/
theorem exists_arrangePlacedOnto_concat (stack : List (Operator × Nat))
    (tokens : List (Token × Nat)) (op : Operator) (k : Nat) :
    ∃ out below, ∀ rest, arrangePlacedOnto stack (tokens ++ (.operator op, k) :: rest)
      = out ++ arrangePlacedOnto ((op, k) :: below) rest := by
  obtain ⟨out, below, h⟩ := exists_arrangePlacedOnto_append stack tokens
  cases hop : op.isPrefix with
  | true => exact ⟨out, below, fun rest => by rw [h, arrangePlacedOnto_wait hop]⟩
  | false =>
    exact ⟨out ++ (below.takeWhile op.letsOut).map Operator.placed, below.dropWhile op.letsOut,
      fun rest => by rw [h, arrangePlacedOnto_between hop, List.append_assoc]⟩

/-! ### Pieces of formulas -/

/-- What stands after an operator is a formula, and so is what stands before an operator between
operands. -/
theorem isInfix_of_append_operator {op : Operator} {before after : List Token} :
    (isInfix (before ++ .operator op :: after) = true →
      isInfix after = true ∧ (op.isPrefix = false → isInfix before = true)) ∧
    (isTail (before ++ .operator op :: after) = true →
      isInfix after = true ∧ (op.isPrefix = false → isTail before = true)) := by
  induction before with
  | nil => cases hop : op.isPrefix <;> simp [isInfix, isTail, hop]
  | cons t before ih =>
    obtain ⟨ihInfix, ihTail⟩ := ih
    rcases t.eq_token_or_eq_operator with ⟨a, rfl⟩ | ⟨other, rfl⟩
    · cases a <;> simpa [Operand.token, isInfix, isTail] using ihTail
    · cases hother : other.isPrefix <;> simpa [isInfix, isTail, hother] using ihInfix

/-- Whether tokens with places are the listing of a tree. -/
def IsListing (tokens : List (Token × Nat)) : Prop :=
  ∃ t : Tree Operand, tokens.map Prod.fst = t.program

theorem isListing_of_isInfix {tokens : List (Token × Nat)}
    (h : isInfix (tokens.map Prod.fst) = true) : IsListing (arrangePlacedOnto [] tokens) := by
  obtain ⟨t, -, ht⟩ := exists_arrangeOnto_eq_program h
  exact ⟨t, by rw [map_fst_arrangePlacedOnto]; exact ht⟩

/-- The operands of an operator between operands: the listings of two trees, the second one just
before the operator and the first one just before that. -/
structure Operates (program : List (Token × Nat)) (symbol : Symbol) (j : Nat)
    (lhs rhs : List (Token × Nat)) : Prop where
  exists_eq : ∃ before after,
    program = before ++ lhs ++ rhs ++ (.operator (.binary symbol), j) :: after
  left : IsListing lhs
  right : IsListing rhs

/-- **Left operands.** The left operand of an operator is what has been written since an operator
that binds less tightly, or since the beginning, provided that everything there binds at least as
tightly. -/
theorem exists_operates {symbol : Symbol} {j : Nat} {before lhs after : List (Token × Nat)}
    (hformula : isInfix
      ((before ++ (lhs ++ (.operator (.binary symbol), j) :: after)).map Prod.fst) = true)
    (hlhs : Tight symbol.precedence lhs)
    (hbefore : before = [] ∨ ∃ init op k, before = init ++ [(.operator op, k)] ∧
      op.precedence < symbol.precedence) :
    ∃ rhs, Operates
      (arrangePlacedOnto [] (before ++ (lhs ++ (.operator (.binary symbol), j) :: after)))
      symbol j (arrangePlacedOnto [] lhs) rhs := by
  obtain ⟨out, below, hbelow, hout, hrest⟩ : ∃ out below,
      (∀ top ∈ below.head?, top.1.precedence < symbol.precedence) ∧
      (∀ rest, arrangePlacedOnto [] (before ++ rest) = out ++ arrangePlacedOnto below rest) ∧
      isInfix ((lhs ++ (.operator (.binary symbol), j) :: after).map Prod.fst) = true := by
    rcases hbefore with rfl | ⟨init, op, k, rfl, hop⟩
    · exact ⟨[], [], by simp, fun rest => rfl, hformula⟩
    · obtain ⟨out, below, hout⟩ := exists_arrangePlacedOnto_concat [] init op k
      refine ⟨out, (op, k) :: below, by rintro _ ⟨⟩; exact hop, fun rest => ?_, ?_⟩
      · rw [List.append_assoc, List.singleton_append, hout]
      · rw [List.append_assoc, List.singleton_append, List.map_append, List.map_cons] at hformula
        exact (isInfix_of_append_operator.1 hformula).1
  rw [List.map_append, List.map_cons] at hrest
  obtain ⟨hafter, hleft⟩ := isInfix_of_append_operator.1 hrest
  obtain ⟨read, rest, rfl, hhead, hread⟩ :=
    exists_arrangePlacedOnto_eq_append (.binary symbol, j) [] below after
  have hright : isInfix (read.map Prod.fst) = true := by
    cases rest with
    | nil => simpa using hafter
    | cons first rest =>
      obtain ⟨op, hfirst, hop⟩ := hhead first rfl
      rw [List.map_append, List.map_cons, hfirst] at hafter
      exact (isInfix_of_append_operator.1 hafter).2 hop
  refine ⟨arrangePlacedOnto [] read, ⟨out, arrangePlacedOnto below rest, ?_⟩,
    isListing_of_isInfix (hleft rfl), isListing_of_isInfix hright⟩
  rw [← Operator.precedence_binary symbol] at hbelow hlhs
  have hcut : arrangePlacedOnto ([] ++ below)
      (lhs ++ (.operator (.binary symbol), j) :: (read ++ rest)) = _ :=
    arrangePlacedOnto_append_operator rfl (by simp) hbelow hlhs j (read ++ rest)
  rw [List.nil_append] at hcut hread
  rw [hout, hcut, hread, List.append_assoc, List.append_assoc]
  rfl

theorem IsListing.depthAfter {tokens : List (Token × Nat)} (h : IsListing tokens) (depth : Nat) :
    depthAfter depth (tokens.map Prod.fst) = .ok (depth + 1) := by
  obtain ⟨t, ht⟩ := h
  simpa [Formulary.depthAfter, ht] using t.depthAfter_program_append [] depth

/-- No listing ends with another one: what stands before it would leave nothing. -/
theorem IsListing.eq_nil_of_append {tokens rest : List (Token × Nat)}
    (h : IsListing (rest ++ tokens)) (htokens : IsListing tokens) : rest = [] := by
  have hdepth := h.depthAfter 0
  rw [List.map_append, depthAfter_append] at hdepth
  cases hrest : Formulary.depthAfter 0 (rest.map Prod.fst) with
  | error e => simp [hrest] at hdepth
  | ok depth =>
    simp only [hrest, htokens.depthAfter, Except.ok.injEq, Nat.add_right_cancel_iff] at hdepth
    by_contra hne
    have := pos_of_depthAfter hrest (.inr (by simpa using hne))
    omega

/-- A listing at the end of a list of tokens is determined. -/
theorem IsListing.append_inj {l m l' m' : List (Token × Nat)} (hm : IsListing m)
    (hm' : IsListing m') (h : l ++ m = l' ++ m') : l = l' ∧ m = m' := by
  rcases List.append_eq_append_iff.mp h with ⟨rest, rfl, rfl⟩ | ⟨rest, rfl, rfl⟩
  · obtain rfl := hm.eq_nil_of_append hm'
    simp
  · obtain rfl := hm'.eq_nil_of_append hm
    simp

/-- **The operands are determined** by the place of the operator. -/
theorem Operates.unique {program lhs rhs lhs' rhs' : List (Token × Nat)} {symbol : Symbol} {j : Nat}
    (hnodup : program.Nodup) (h : Operates program symbol j lhs rhs)
    (h' : Operates program symbol j lhs' rhs') : lhs = lhs' ∧ rhs = rhs' := by
  obtain ⟨before, after, rfl⟩ := h.exists_eq
  obtain ⟨before', after', heq⟩ := h'.exists_eq
  rw [List.nodup_append, List.nodup_cons] at hnodup
  obtain ⟨-, ⟨hafter, -⟩, hbefore⟩ := hnodup
  obtain ⟨hpieces, -⟩ := (List.append_cons_inj_of_notMem
    (fun hmem => hbefore _ hmem _ List.mem_cons_self rfl) hafter).mp heq
  obtain ⟨hleft, rfl⟩ := h.right.append_inj h'.right hpieces
  obtain ⟨-, rfl⟩ := h.left.append_inj h'.left hleft
  exact ⟨rfl, rfl⟩

/-! ### Association -/

/-- Whether the operator `a` from the place `i` belongs to what the operator `b` from the place `j`
is applied to on its left. -/
def JoinsLeft (program : List (Token × Nat)) (a : Symbol) (i : Nat) (b : Symbol) (j : Nat) : Prop :=
  ∃ lhs rhs, Operates program b j lhs rhs ∧ (.operator (.binary a), i) ∈ lhs

/-- Two operators of one precedence between operands, and no operator that binds less tightly
between operands among the tokens between them. -/
structure SamePrecedence (tokens before : List Token) (a : Symbol) (between : List Token)
    (b : Symbol) (after : List Token) : Prop where
  tokens_eq :
    tokens = before ++ .operator (.binary a) :: (between ++ .operator (.binary b) :: after)
  precedence_eq : a.precedence = b.precedence
  le : ∀ c, .operator (.binary c) ∈ between → a.precedence ≤ c.precedence

/-- What belongs to the left operand of an operator is executed before it. -/
theorem JoinsLeft.sublist {program : List (Token × Nat)} {a b : Symbol} {i j : Nat}
    (h : JoinsLeft program a i b j) :
    [(.operator (.binary a), i), (.operator (.binary b), j)].Sublist program := by
  obtain ⟨lhs, rhs, hoperates, hmem⟩ := h
  obtain ⟨before, after, rfl⟩ := hoperates.exists_eq
  have hleft : [(Token.operator (.binary a), i)].Sublist (before ++ lhs ++ rhs) :=
    List.singleton_sublist.mpr (by simp [hmem])
  exact hleft.append (List.singleton_sublist.mpr List.mem_cons_self)

/-- What is written splits at the last operator that binds less tightly than `bound`. -/
theorem exists_append_tight (bound : Nat) (tokens : List (Token × Nat)) :
    ∃ before rest, tokens = before ++ rest ∧ Tight bound rest ∧ (before = [] ∨
      ∃ init op k, before = init ++ [(.operator op, k)] ∧ op.precedence < bound) := by
  induction tokens with
  | nil => exact ⟨[], [], rfl, by simp [Tight], .inl rfl⟩
  | cons first tokens ih =>
    obtain ⟨before, rest, rfl, hrest, rfl | ⟨init, op, k, rfl, hop⟩⟩ := ih
    · by_cases hfirst : ∃ op k, first = (.operator op, k) ∧ op.precedence < bound
      · obtain ⟨op, k, rfl, hop⟩ := hfirst
        exact ⟨[(.operator op, k)], rest, rfl, hrest, .inr ⟨[], op, k, rfl, hop⟩⟩
      · refine ⟨[], first :: rest, rfl, fun op k hmem => ?_, .inl rfl⟩
        rcases List.mem_cons.mp hmem with rfl | hmem
        · exact Nat.not_lt.mp fun hop => hfirst ⟨op, k, rfl, hop⟩
        · exact hrest op k hmem
    · exact ⟨first :: (init ++ [(.operator op, k)]), rest, rfl, hrest,
        .inr ⟨first :: init, op, k, rfl, hop⟩⟩

/-- The places of the tokens of two operators and of what stands around them. -/
theorem SamePrecedence.zipIdx_eq {tokens before between after : List Token} {a b : Symbol}
    (h : SamePrecedence tokens before a between b after) :
    tokens.zipIdx = before.zipIdx ++ (.operator (.binary a), before.length) ::
      (between.zipIdx (before.length + 1) ++
        (.operator (.binary b), before.length + 1 + between.length) ::
          after.zipIdx (before.length + 1 + between.length + 1)) := by
  rw [h.tokens_eq, List.zipIdx_append, List.zipIdx_cons, List.zipIdx_append, List.zipIdx_cons,
    Nat.zero_add]

theorem isInfix_map_fst_zipIdx {tokens : List Token} (h : isInfix tokens = true) :
    isInfix (tokens.zipIdx.map Prod.fst) = true := by
  rwa [List.zipIdx_map_fst]

/-- **To the left.** Where nothing that stands between two operators of one precedence binds less
tightly, the left one belongs to the left operand of the right one. -/
theorem SamePrecedence.joinsLeft {tokens before between after : List Token} {a b : Symbol}
    (h : SamePrecedence tokens before a between b after) (hformula : isInfix tokens = true)
    (hbetween : ∀ op, .operator op ∈ between → b.precedence ≤ op.precedence) :
    JoinsLeft (placedProgram tokens) a before.length b
      (before.length + 1 + between.length) := by
  obtain ⟨init, rest, hbefore, hrest, hinit⟩ := exists_append_tight b.precedence before.zipIdx
  have hformula' := isInfix_map_fst_zipIdx hformula
  have htokens : tokens.zipIdx = init ++ ((rest ++ (.operator (.binary a), before.length) ::
      between.zipIdx (before.length + 1)) ++
        (.operator (.binary b), before.length + 1 + between.length) ::
          after.zipIdx (before.length + 1 + between.length + 1)) := by
    rw [h.zipIdx_eq, hbefore]
    simp
  have htight : Tight b.precedence (rest ++ (.operator (.binary a), before.length) ::
      between.zipIdx (before.length + 1)) := by
    refine hrest.append fun op k hmem => ?_
    rcases List.mem_cons.mp hmem with heq | hmem
    · cases heq
      rw [Operator.precedence_binary, h.precedence_eq]
    · exact hbetween op (List.fst_mem_of_mem_zipIdx hmem)
  rw [htokens] at hformula'
  obtain ⟨rhs, hoperates⟩ := exists_operates hformula' htight hinit
  rw [← htokens] at hoperates
  exact ⟨_, rhs, hoperates, mem_arrangePlacedOnto_nil.mpr (by simp)⟩

/-- **Not to the left.** Where an operator that binds less tightly stands between two others, the
left one does not belong to the left operand of the right one. -/
theorem SamePrecedence.not_joinsLeft {tokens before between after : List Token} {a b : Symbol}
    (h : SamePrecedence tokens before a between b after) (hformula : isInfix tokens = true)
    {op : Operator} (hop : .operator op ∈ between) (hlt : op.precedence < b.precedence) :
    ¬ JoinsLeft (placedProgram tokens) a before.length b
      (before.length + 1 + between.length) := by
  rintro ⟨lhs, rhs, hoperates, hmem⟩
  obtain ⟨init, rest, hbetween, hrest, hinit⟩ :=
    exists_append_tight b.precedence (between.zipIdx (before.length + 1))
  have hformula' := isInfix_map_fst_zipIdx hformula
  have htokens : tokens.zipIdx =
      (before.zipIdx ++ (.operator (.binary a), before.length) :: init) ++
      (rest ++ (.operator (.binary b), before.length + 1 + between.length) ::
          after.zipIdx (before.length + 1 + between.length + 1)) := by
    rw [h.zipIdx_eq, hbetween]
    simp
  -- The nearest operator that binds less tightly stands between the two.
  obtain ⟨init, other, k, rfl, hother⟩ : ∃ init' other k, init = init' ++ [(.operator other, k)] ∧
      other.precedence < b.precedence := by
    refine hinit.resolve_left ?_
    rintro rfl
    rw [← List.zipIdx_map_fst (before.length + 1) between, List.mem_map, hbetween] at hop
    obtain ⟨⟨t, k⟩, hk, rfl⟩ := hop
    exact absurd (hrest op k hk) (Nat.not_le.mpr hlt)
  rw [htokens] at hformula'
  obtain ⟨rhs', hoperates'⟩ := exists_operates hformula' hrest
    (.inr ⟨before.zipIdx ++ (.operator (.binary a), before.length) :: init, other, k, by simp,
      hother⟩)
  rw [← htokens] at hoperates'
  obtain ⟨rfl, -⟩ := hoperates.unique (nodup_placedProgram tokens) hoperates'
  have hplace : (.operator (.binary a), before.length) ∈ between.zipIdx (before.length + 1) := by
    rw [hbetween]
    exact List.mem_append_right _ (mem_arrangePlacedOnto_nil.mp hmem)
  have := List.le_snd_of_mem_zipIdx hplace
  omega

/-! ### Texts -/

/-- Operators that are written before their operands all bind alike. -/
theorem Operator.IsWritable.precedence_unary {c : Symbol} (h : (Operator.unary c).IsWritable) :
    (Operator.unary c).precedence = 25 := by
  rcases h with rfl | rfl | hfunction
  · rfl
  · rfl
  · cases c <;> first | rfl | cases hfunction

/-- Of all symbols only the arrow binds more tightly than that. -/
theorem Symbol.precedence_le_of_ne_arrow {symbol : Symbol} (h : symbol ≠ .arrow) :
    symbol.precedence ≤ 25 := by
  cases symbol <;> first | decide | exact absurd rfl h

/-- An arrow has its precedence to itself. -/
theorem Symbol.eq_arrow_of_precedence_eq {a b : Symbol} (h : a.precedence = b.precedence)
    (ha : a = .arrow) : b = .arrow := by
  subst ha
  by_contra hb
  have hle := b.precedence_le_of_ne_arrow hb
  rw [← h] at hle
  exact absurd hle (by decide)

/-- **Operators of one precedence associate to the left.** In a text of well-formed tokens, let two
operators between operands have one precedence, and let none between operands that binds less
tightly stand between them. The left one belongs to the left operand of the right one, and is
executed before it, whatever operators before their operands stand between them; unless the two are
arrows, which alone bind more tightly than those. Between arrows it is so exactly if there is none
of them. -/
theorem joinsLeft_iff {provider : Provider} {source : String} {tokens : List Token}
    (hscan : scan provider source = .ok tokens) (hformula : isInfix tokens = true) :
    ∃ program, parse provider source = .ok ⟨tokens, program⟩ ∧
      (placedProgram tokens).map Prod.fst = program ∧
      (placedProgram tokens).Perm tokens.zipIdx ∧
      ∀ before a between b after, SamePrecedence tokens before a between b after →
        let i := before.length
        let j := before.length + 1 + between.length
        (JoinsLeft (placedProgram tokens) a i b j ↔
          (a = .arrow → ∀ c, .operator (.unary c) ∉ between)) ∧
        (JoinsLeft (placedProgram tokens) a i b j →
          [(.operator (.binary a), i), (.operator (.binary b), j)].Sublist
            (placedProgram tokens)) := by
  obtain ⟨t, -, harrange⟩ := exists_arrange_eq_program hformula
  have hparse : parse provider source = .ok ⟨tokens, t.program⟩ :=
    parse_eq_ok_iff.mpr ⟨hscan, harrange⟩
  have hprogram : (placedProgram tokens).map Prod.fst = t.program := by
    rw [map_fst_placedProgram, (arrange_eq_ok_iff.mp harrange).1]
  refine ⟨t.program, hparse, hprogram, placedProgram_perm tokens, ?_⟩
  intro before a between b after h
  have hwritable : ∀ op, .operator op ∈ between → op.IsWritable := fun op hop =>
    isWritable_of_mem hparse (show Token.operator op ∈ tokens by simp [h.tokens_eq, hop])
  refine ⟨⟨fun hjoins harrow c hc => ?_, fun hnone => ?_⟩, JoinsLeft.sublist⟩
  · refine h.not_joinsLeft hformula hc ?_ hjoins
    rw [(hwritable _ hc).precedence_unary, Symbol.eq_arrow_of_precedence_eq h.precedence_eq harrow]
    decide
  · refine h.joinsLeft hformula fun op hop => ?_
    cases hprefix : op.isPrefix with
    | false =>
      rw [Operator.eq_binary hprefix] at hop ⊢
      rw [Operator.precedence_binary, ← h.precedence_eq]
      exact h.le op.symbol hop
    | true =>
      rw [Operator.eq_unary hprefix] at hop ⊢
      rw [(hwritable _ hop).precedence_unary, ← h.precedence_eq]
      exact Symbol.precedence_le_of_ne_arrow fun harrow => hnone harrow _ hop

/-- In `a**-b->c**d` the first power belongs to the left operand of the second one, past a sign and
an arrow. -/
theorem joinsLeft_iff_powers : ∃ tokens, scan .sole "a**-b->c**d" = .ok tokens ∧
    isInfix tokens = true ∧ JoinsLeft (placedProgram tokens) .power 1 .power 6 := by
  let a : Name := ⟨'a', [], rfl, by simp, by decide⟩
  let b : Name := ⟨'b', [], rfl, by simp, by decide⟩
  let c : Name := ⟨'c', [], rfl, by simp, by decide⟩
  let d : Name := ⟨'d', [], rfl, by simp, by decide⟩
  have hlexes : Lexes true (a.text ++ (Symbol.power.text.toList ++ (Symbol.subtract.text.toList ++
      (b.text ++ (Symbol.arrow.text.toList ++ (c.text ++ (Symbol.power.text.toList ++
        (d.text ++ []))))))))
      [.reference "a", .operator (.binary .power), .operator (.unary .subtract), .reference "b",
        .operator (.binary .arrow), .reference "c", .operator (.binary .power), .reference "d"] :=
    .cons (.reference a rfl) (.cons (.binary rfl (by rintro ⟨⟩) (by rintro _ ⟨⟩))
      (.cons (.sign rfl (.inr rfl)) (.cons (.reference b rfl) (.cons
        (.binary rfl (by rintro ⟨⟩) (by rintro _ ⟨⟩)) (.cons (.reference c rfl) (.cons
          (.binary rfl (by rintro ⟨⟩) (by rintro _ ⟨⟩)) (.cons (.reference d rfl) (.nil _))))))))
  have hparse : parse .sole "a**-b->c**d" = .ok ⟨_, _⟩ :=
    parse_of_lexes hlexes (.cons rfl (.cons rfl (.cons rfl (.cons rfl (.cons rfl (.cons rfl
      (.cons rfl (.cons rfl .nil)))))))) rfl
  have hscan := (parse_eq_ok_iff.mp hparse).1
  obtain ⟨-, -, -, -, hiff⟩ := joinsLeft_iff hscan rfl
  refine ⟨_, hscan, rfl, (hiff [.reference "a"] .power [.operator (.unary .subtract),
    .reference "b", .operator (.binary .arrow), .reference "c"] .power [.reference "d"]
      ⟨rfl, rfl, fun symbol hmem => ?_⟩).1.mpr (by rintro ⟨⟩)⟩
  obtain rfl : symbol = .arrow := by simpa using hmem
  decide

/-- In `a->-b->c` the first arrow is executed after the second one, to whose left operand it does
not belong. -/
theorem not_forall_joinsLeft : ¬ ∀ provider source tokens, scan provider source = .ok tokens →
    isInfix tokens = true →
    ∀ before a between b after, SamePrecedence tokens before a between b after →
      let i := before.length
      let j := before.length + 1 + between.length
      [(.operator (.binary a), i), (.operator (.binary b), j)].Sublist (placedProgram tokens) ∧
        JoinsLeft (placedProgram tokens) a i b j := by
  intro hall
  let a : Name := ⟨'a', [], rfl, by simp, by decide⟩
  let b : Name := ⟨'b', [], rfl, by simp, by decide⟩
  let c : Name := ⟨'c', [], rfl, by simp, by decide⟩
  have hlexes : Lexes true (a.text ++ (Symbol.arrow.text.toList ++ (Symbol.subtract.text.toList ++
      (b.text ++ (Symbol.arrow.text.toList ++ (c.text ++ []))))))
      [.reference "a", .operator (.binary .arrow), .operator (.unary .subtract), .reference "b",
        .operator (.binary .arrow), .reference "c"] :=
    .cons (.reference a rfl) (.cons (.binary rfl (by rintro ⟨⟩) (by rintro _ ⟨⟩))
      (.cons (.sign rfl (.inr rfl)) (.cons (.reference b rfl) (.cons
        (.binary rfl (by rintro ⟨⟩) (by rintro _ ⟨⟩)) (.cons (.reference c rfl) (.nil _))))))
  have hparse : parse .sole "a->-b->c" = .ok ⟨_, _⟩ := parse_of_lexes hlexes (.cons rfl (.cons rfl
    (.cons rfl (.cons rfl (.cons rfl (.cons rfl .nil)))))) rfl
  have hscan := (parse_eq_ok_iff.mp hparse).1
  obtain ⟨hsublist, -⟩ := hall .sole "a->-b->c" _ hscan rfl [.reference "a"] .arrow
    [.operator (.unary .subtract), .reference "b"] .arrow [.reference "c"] ⟨rfl, rfl, by simp⟩
  have hplaces : [1, 4].Sublist [0, 3, 5, 4, 2, 1] := hsublist.map Prod.snd
  exact absurd hplaces (by decide)

end Formulary
