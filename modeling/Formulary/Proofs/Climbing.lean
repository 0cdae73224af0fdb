import Formulary.Proofs.Tree

/-!
# Arranging reads the tree

A formula is usually read by precedence climbing: a reader that is told how tightly an operator has
to bind for it to go on reads an operand, and then operators and their right operands for as long
as they bind more tightly. `arrange` does no such thing. It keeps a stack of operators and looks at
no neighbours.

The two agree because of what is on the stack: each waiting operator is a reader that has been
called for its operand and has not returned, told the precedence of that operator. An operator
between operands makes the readers return whose bound it does not exceed, and these are the
operators that it lets out. Operators before their operands spoil the order of the precedences on
the stack, since they are put there without letting anything out, but not this correspondence: a
reader is asked before those that called it, so the stack need not be sorted.

## Main definitions

* `isInfix` — whether tokens are operands with operators between and before them
* `Tree.readTree?` — precedence climbing
* `Tree.ofTokens?` — the tree of a list of tokens

## Main results

* `reads_readTree?` — what a reader takes away is what the stack takes away
* `arrange_infix` — well-formed tokens are arranged into the listing of their tree, whose execution
  is the evaluation of the tree
-/

namespace Formulary

/-! ### Well-formed tokens -/

mutual

/-- Whether tokens are a formula: operators before an operand, the operand, and what can follow
it. -/
def isInfix : List Token → Bool
  | [] => false
  | .operator op :: rest => op.isPrefix && isInfix rest
  | _ :: rest => isTail rest

/-- Whether tokens can follow an operand: none, or an operator between operands and a formula. -/
def isTail : List Token → Bool
  | [] => true
  | .operator op :: rest => !op.isPrefix && isInfix rest
  | _ :: _ => false

end

/-! ### Precedence climbing -/

/-- Fewer tokens than there are. -/
abbrev Shorter (tokens : List Token) := {rest : List Token // rest.length < tokens.length}

/-- No more tokens than there are. -/
abbrev NoLonger (tokens : List Token) := {rest : List Token // rest.length ≤ tokens.length}

theorem length_lt_cons (rest : List Token) : rest.length < rest.length + 1 := Nat.lt_succ_self _

theorem Shorter.length_lt_cons (tokens : List Token) (rest : Shorter tokens) :
    rest.1.length < tokens.length + 1 := Nat.lt_succ_of_lt rest.2

theorem Shorter.length_lt_of_noLonger (tokens : List Token) (rest : Shorter tokens)
    (rest' : NoLonger rest.1) : rest'.1.length < tokens.length := Nat.lt_of_le_of_lt rest'.2 rest.2

theorem Shorter.length_le_of_noLonger (tokens : List Token) (rest : Shorter tokens)
    (rest' : NoLonger rest.1) : rest'.1.length ≤ tokens.length + 1 :=
  Nat.le_succ_of_le (Nat.le_trans rest'.2 (Nat.le_of_lt rest.2))

/-- All the tokens there are. -/
def NoLonger.all (tokens : List Token) : NoLonger tokens := ⟨tokens, Nat.le_refl _⟩

namespace Tree

mutual

/-- Reads an operand, or an operator and the operand before which it stands. -/
def readTerm? (tokens : List Token) : Option (Tree Operand × Shorter tokens) :=
  match tokens with
  | .constant c :: rest => some (leaf (.constant c), ⟨rest, length_lt_cons rest⟩)
  | .reference name :: rest => some (leaf (.reference name), ⟨rest, length_lt_cons rest⟩)
  | .group name provider source inner program :: rest =>
    some (leaf (.group name provider source inner program), ⟨rest, length_lt_cons rest⟩)
  | .operator op :: rest =>
    if op.isPrefix then
      match readTree? op.precedence rest with
      | none => none
      | some (t, rest') => some (unary op.symbol t, ⟨rest'.1, rest'.length_lt_cons rest⟩)
    else none
  | [] => none
termination_by (tokens.length, 0)

/-- Reads a tree that goes on for as long as operators bind more tightly than `bound`. -/
def readTree? (bound : Nat) (tokens : List Token) : Option (Tree Operand × Shorter tokens) :=
  match readTerm? tokens with
  | none => none
  | some (t, rest) =>
    match extend? bound t rest.1 with
    | none => none
    | some (t', rest') => some (t', ⟨rest'.1, rest.length_lt_of_noLonger tokens rest'⟩)
termination_by (tokens.length, 1)

/-- Makes a tree the left operand of the operators after it that bind more tightly than `bound`. -/
def extend? (bound : Nat) (lhs : Tree Operand) (tokens : List Token) :
    Option (Tree Operand × NoLonger tokens) :=
  match tokens with
  | .operator op :: rest =>
    if !op.isPrefix && bound < op.precedence then
      match readTree? op.precedence rest with
      | none => none
      | some (rhs, rest') =>
        match extend? bound (binary op.symbol lhs rhs) rest'.1 with
        | none => none
        | some (t, rest'') => some (t, ⟨rest''.1, rest'.length_le_of_noLonger rest rest''⟩)
    else some (lhs, .all (.operator op :: rest))
  | rest => some (lhs, .all rest)
termination_by (tokens.length, 0)

end

/-- The tree of a list of tokens, all of which have to be read. -/
def ofTokens? (tokens : List Token) : Option (Tree Operand) :=
  match readTree? 0 tokens with
  | some (t, ⟨[], _⟩) => some t
  | _ => none

end Tree

/-! ### What the stack takes away -/

/-- An operator that binds more tightly than `bound` lets nothing out of such a stack. -/
def HeldBy (bound : Nat) (stack : List Operator) : Prop :=
  ∀ top ∈ stack.head?, top.precedence ≤ bound

/-- Tokens at which a reader with this bound returns: none, or an operator between operands that
does not bind more tightly. -/
structure Returns (bound : Nat) (tokens : List Token) : Prop where
  tail : isTail tokens = true
  le : ∀ op rest, tokens = .operator op :: rest → op.precedence ≤ bound

theorem arrangeOnto_operand (stack : List Operator) (a : Operand) (rest : List Token) :
    arrangeOnto stack (a.token :: rest) = a.token :: arrangeOnto stack rest := by
  cases a <;> rfl

theorem arrangeOnto_wait {op : Operator} (h : op.isPrefix = true) (stack : List Operator)
    (rest : List Token) :
    arrangeOnto stack (.operator op :: rest) = arrangeOnto (op :: stack) rest := by
  rw [arrangeOnto, if_pos h]

theorem arrangeOnto_push {op : Operator} {bound : Nat} {stack : List Operator}
    (h : op.isPrefix = false) (hbound : bound < op.precedence) (hstack : HeldBy bound stack)
    (rest : List Token) :
    arrangeOnto stack (.operator op :: rest) = arrangeOnto (op :: stack) rest := by
  rw [arrangeOnto, if_neg (by simp [h])]
  cases stack with
  | nil => rfl
  | cons top stack =>
    have hlt : ¬ op.precedence ≤ top.precedence := by
      have := hstack top rfl
      omega
    simp [hlt]

theorem arrangeOnto_pop {top : Operator} {tokens : List Token} (h : Returns top.precedence tokens)
    (stack : List Operator) :
    arrangeOnto (top :: stack) tokens = .operator top :: arrangeOnto stack tokens := by
  cases tokens with
  | nil => rfl
  | cons t rest =>
    rcases t.eq_token_or_eq_operator with ⟨a, rfl⟩ | ⟨op, rfl⟩
    · cases a <;> exact absurd h.tail (by simp [Operand.token, isTail])
    · have hop : op.isPrefix = false := by
        have := h.tail
        simp only [isTail, Bool.and_eq_true, Bool.not_eq_true'] at this
        exact this.1
      have hle : op.precedence ≤ top.precedence := h.le op rest rfl
      simp [arrangeOnto, hop, hle]

/-! ### Readers take away what the stack takes away -/

/-- What a reader takes away from the tokens is what the stack takes away: the listing of the tree,
with the operators that wait below left where they are. -/
def Takes (held : List Operator → Prop) (tokens : List Token) (t : Tree Operand)
    (rest : List Token) : Prop :=
  ∀ stack, held stack → arrangeOnto stack tokens = t.program ++ arrangeOnto stack rest

theorem heldBy_cons (op : Operator) (stack : List Operator) :
    HeldBy op.precedence (op :: stack) := by
  rintro top ⟨⟩
  exact Nat.le_refl _

mutual

/-- Operands, and operators before their operands. Such an operator is put on the stack whatever
is there, and waits for the reader that reads its operand. -/
theorem reads_readTerm? {tokens : List Token} (h : isInfix tokens = true) :
    ∃ t rest, Tree.readTerm? tokens = some (t, rest) ∧ isTail rest.1 = true
      ∧ Takes (fun _ => True) tokens t rest.1 := by
  match tokens, h with
  | [], h => simp [isInfix] at h
  | first :: rest, h =>
    rcases first.eq_token_or_eq_operator with ⟨a, rfl⟩ | ⟨op, rfl⟩
    · refine ⟨.leaf a, ⟨rest, length_lt_cons rest⟩, ?_, ?_, fun stack _ => ?_⟩
      · cases a <;> rw [Operand.token, Tree.readTerm?]
      · cases a <;> simpa [Operand.token, isInfix] using h
      · rw [arrangeOnto_operand]; rfl
    · simp only [isInfix, Bool.and_eq_true] at h
      obtain ⟨hop, hrest⟩ := h
      obtain ⟨t, rest', hread, hreturns, htakes⟩ := reads_readTree? hrest op.precedence
      refine ⟨.unary op.symbol t, ⟨rest'.1, rest'.length_lt_cons rest⟩, ?_, hreturns.tail,
        fun stack _ => ?_⟩
      · rw [Tree.readTerm?, if_pos hop, hread]
      · rw [arrangeOnto_wait hop, htakes _ (heldBy_cons op stack), arrangeOnto_pop hreturns,
          Tree.program, ← Operator.eq_unary hop, List.append_assoc, List.singleton_append]
termination_by (tokens.length, 0)

/-- A reader with any bound succeeds on the tokens of a formula, and takes away what the stack
takes away. -/
theorem reads_readTree? {tokens : List Token} (h : isInfix tokens = true) (bound : Nat) :
    ∃ t rest, Tree.readTree? bound tokens = some (t, rest) ∧ Returns bound rest.1
      ∧ Takes (HeldBy bound) tokens t rest.1 := by
  obtain ⟨t, rest, hterm, htail, htakes⟩ := reads_readTerm? h
  have hlen := rest.2
  obtain ⟨t', rest', hextend, hreturns, htakes'⟩ := reads_extend? htail bound t
  refine ⟨t', ⟨rest'.1, rest.length_lt_of_noLonger tokens rest'⟩, ?_, hreturns,
    fun stack hstack => ?_⟩
  · rw [Tree.readTree?, hterm]
    simp only [hextend]
  · rw [htakes stack trivial, htakes' stack hstack]
termination_by (tokens.length, 1)

/-- Operators between operands. One that binds more tightly than the bound lets nothing out, and
waits for the reader that reads its right operand; any other one makes the reader return. -/
theorem reads_extend? {tokens : List Token} (h : isTail tokens = true) (bound : Nat)
    (lhs : Tree Operand) :
    ∃ t rest, Tree.extend? bound lhs tokens = some (t, rest) ∧ Returns bound rest.1
      ∧ ∀ stack, HeldBy bound stack →
        lhs.program ++ arrangeOnto stack tokens = t.program ++ arrangeOnto stack rest.1 := by
  match tokens, h with
  | [], _ =>
    refine ⟨lhs, .all [], ?_, ⟨rfl, by rintro op rest ⟨⟩⟩, fun stack _ => rfl⟩
    rw [Tree.extend?]
    rintro op rest ⟨⟩
  | first :: rest, h =>
    rcases first.eq_token_or_eq_operator with ⟨a, rfl⟩ | ⟨op, rfl⟩
    · cases a <;> simp [Operand.token, isTail] at h
    · have hrest := h
      simp only [isTail, Bool.and_eq_true, Bool.not_eq_true'] at hrest
      obtain ⟨hop, hrest⟩ := hrest
      by_cases hlt : bound < op.precedence
      · obtain ⟨rhs, rest', hread, hreturns, htakes⟩ := reads_readTree? hrest op.precedence
        have hlen := rest'.2
        obtain ⟨t, rest'', hextend, hreturns', htakes'⟩ :=
          reads_extend? hreturns.tail bound (.binary op.symbol lhs rhs)
        refine ⟨t, ⟨rest''.1, rest'.length_le_of_noLonger rest rest''⟩, ?_, hreturns',
          fun stack hstack => ?_⟩
        · rw [Tree.extend?, if_pos (by simp [hop, hlt]), hread]
          simp only [hextend]
        · rw [arrangeOnto_push hop hlt hstack, htakes _ (heldBy_cons op stack),
            arrangeOnto_pop hreturns, ← htakes' stack hstack, Tree.program,
            ← Operator.eq_binary hop]
          simp
      · refine ⟨lhs, .all (.operator op :: rest), ?_, ⟨h, ?_⟩, fun stack _ => rfl⟩
        · rw [Tree.extend?, if_neg (by simp [hlt])]
        · rintro op' rest' heq
          cases heq
          omega
termination_by (tokens.length, 0)

end

/-- Well-formed tokens have a tree, and the stack lists it. -/
theorem exists_arrangeOnto_eq_program {tokens : List Token} (h : isInfix tokens = true) :
    ∃ t, Tree.ofTokens? tokens = some t ∧ arrangeOnto [] tokens = t.program := by
  obtain ⟨t, ⟨rest, hlen⟩, hread, hreturns, htakes⟩ := reads_readTree? h 0
  -- Nothing is left over: the outermost reader returns at an operator of precedence 0 only.
  have hrest : rest = [] := by
    cases rest with
    | nil => rfl
    | cons first rest =>
      rcases first.eq_token_or_eq_operator with ⟨a, rfl⟩ | ⟨op, rfl⟩
      · cases a <;> exact absurd hreturns.tail (by simp [Operand.token, isTail])
      · have := hreturns.le op rest rfl
        have := op.precedence_pos
        omega
  subst hrest
  refine ⟨t, ?_, ?_⟩
  · rw [Tree.ofTokens?, hread]
  · rw [htakes [] (by rintro top ⟨⟩)]
    simp [arrangeOnto]

/-- Well-formed tokens are arranged into the listing of their tree. -/
theorem exists_arrange_eq_program {tokens : List Token} (h : isInfix tokens = true) :
    ∃ t, Tree.ofTokens? tokens = some t ∧ arrange tokens = .ok t.program := by
  obtain ⟨t, ht, hprogram⟩ := exists_arrangeOnto_eq_program h
  exact ⟨t, ht, arrange_eq_ok_iff.mpr ⟨hprogram, t.checkShape_program⟩⟩

/-- **Arranging reads the tree.** Well-formed tokens are arranged into the listing of the tree that
precedence climbing reads, and executing it is evaluating that tree: it has the same value, or it
fails with the failure of the first node that fails. -/
theorem arrange_infix {tokens : List Token} (h : isInfix tokens = true) :
    ∃ t, Tree.ofTokens? tokens = some t ∧ arrange tokens = .ok t.program ∧
      ∀ lib env, valueOf lib env t.program = t.value lib (Operand.value lib env) ∧
        failure? (valueOf lib env t.program)
          = t.subtrees.findSome? fun u => failure? (u.value lib (Operand.value lib env)) := by
  obtain ⟨t, ht, harrange⟩ := exists_arrange_eq_program h
  refine ⟨t, ht, harrange, fun lib env => ⟨t.valueOf_program lib env, ?_⟩⟩
  rw [t.valueOf_program lib env]
  exact t.failure?_value lib _

/-- The tokens of `-a->b**sqrt 2*c`, whose operators wait with precedences 25 and 30. -/
theorem arrange_infix_arrow_after_sign :
    let tokens : List Token :=
      [.operator (.unary .subtract), .reference "a", .operator (.binary .arrow), .reference "b",
        .operator (.binary .power), .operator (.unary .sqrt), .constant (.whole 2),
        .operator (.binary .multiply), .reference "c"]
    isInfix tokens = true ∧
      ∃ t, Tree.ofTokens? tokens = some t ∧ arrange tokens = .ok t.program ∧
        ∀ lib env, valueOf lib env t.program = t.value lib (Operand.value lib env) ∧
          failure? (valueOf lib env t.program)
            = t.subtrees.findSome? fun u => failure? (u.value lib (Operand.value lib env)) :=
  ⟨rfl, arrange_infix rfl⟩

end Formulary
