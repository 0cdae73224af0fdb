import Formulary.Proofs.Generated

/-!
# Which formulas compare

Whether a formula gives a number or a truth value is told by the last operator of its program, and
the last operator is what is left of everything that has happened on the stack of operators. What
can be told from the text is simpler: a formula compares if it has a comparison outside its groups.

Comparisons bind least. A comparison between operands therefore lets out every operator that waits,
and begins with an empty stack under it; and no other operator lets it out again. So a comparison
cuts the tokens in two: what stands before it is arranged by itself. If there is none after it, what
stands after it is arranged by itself as well, and the comparison comes last.

A comparison that stands before its operand would let nothing out, and there is nothing to be told
about it. No text has one.

## Main definitions

* `Token.compares` — whether a token is an operator that compares
* `Classifies` — whether a program is classified by the comparisons among tokens

## Main results

* `arrangeOnto_append_comparison` — a comparison cuts the tokens in two
* `arrangeOnto_append_bottom` — a comparison stays at the bottom of the stack
* `isComparison_of_comparisons` — a formula compares exactly when it has a comparison outside its
  groups, and then ends with the rightmost one
-/

namespace Formulary

variable {provider : Provider}

/-- Whether a token is an operator that compares. -/
def Token.compares : Token → Bool
  | .operator op => op.isComparison
  | _ => false

/-- A token that compares is an operator. -/
theorem Token.exists_of_compares {t : Token} (h : t.compares = true) :
    ∃ op, t = .operator op ∧ op.isComparison = true := by
  cases t with
  | operator op => exact ⟨op, rfl, h⟩
  | constant c => cases h
  | reference name => cases h
  | group name provider source tokens program => cases h

/-! ### The stack of operators -/

/-- A comparison binds no more tightly than any operator. -/
theorem Operator.precedence_le_of_isComparison {op : Operator} (h : op.isComparison = true)
    (top : Operator) : op.precedence ≤ top.precedence := by
  have hop : op.precedence = 5 := by
    rcases op.precedence_comparison with ⟨hprecedence, -⟩ | ⟨-, hnot⟩
    · exact hprecedence
    · rw [h] at hnot
      cases hnot
  have htop : 5 ≤ top.precedence := by
    rcases top.precedence_comparison with ⟨hprecedence, -⟩ | ⟨hprecedence, -⟩ <;> omega
  omega

/-- Every operator that does not compare binds more tightly than those that do. -/
theorem Operator.precedence_lt_of_isComparison {op other : Operator} (h : op.isComparison = true)
    (hother : other.isComparison = false) : op.precedence < other.precedence := by
  rcases op.precedence_comparison with ⟨hop, -⟩ | ⟨-, hnot⟩
  · rcases other.precedence_comparison with ⟨-, hyes⟩ | ⟨hprecedence, -⟩
    · rw [hother] at hyes
      cases hyes
    · omega
  · rw [h] at hnot
    cases hnot

variable {op : Operator} (hop : op.isComparison = true)

include hop

/-- **A comparison cuts the tokens in two.** It lets out every operator that waits, so that what
stands before it is arranged by itself. -/
theorem arrangeOnto_append_comparison (hbetween : op.isPrefix = false) (stack : List Operator)
    (before after : List Token) :
    arrangeOnto stack (before ++ .operator op :: after)
      = arrangeOnto stack before ++ arrangeOnto [op] after := by
  fun_induction arrangeOnto stack before with
  | case1 stack =>
    have hall : ∀ top ∈ stack, decide (op.precedence ≤ top.precedence) = true :=
      fun top _ => decide_eq_true (op.precedence_le_of_isComparison hop top)
    rw [List.nil_append, arrangeOnto, if_neg (by simp [hbetween])]
    rw [List.takeWhile_eq_self_iff.mpr hall, List.dropWhile_eq_nil_iff.mpr hall]
  | case2 stack other rest hprefix ih => rw [List.cons_append, arrangeOnto, if_pos hprefix, ih]
  | case3 stack other rest hprefix ih =>
    rw [List.cons_append, arrangeOnto, if_neg hprefix, ih, List.append_assoc]
  | case4 stack operand rest hoperand ih =>
    have hsort : operand.isOperand = true := by
      rcases operand.isOperand_or_eq_operator with h | ⟨other, rfl⟩
      · exact h
      · exact absurd rfl (hoperand other)
    rw [List.cons_append, arrangeOnto_cons_operand hsort, ih, List.cons_append]

/-- **A comparison stays at the bottom.** Operators that do not compare leave it there, and it comes
out last. -/
theorem arrangeOnto_append_bottom {after : List Token} (hafter : ∀ t ∈ after, t.compares = false)
    (stack : List Operator) :
    arrangeOnto (stack ++ [op]) after = arrangeOnto stack after ++ [.operator op] := by
  induction after generalizing stack with
  | nil => simp [arrangeOnto]
  | cons t rest ih =>
    obtain ⟨ht, hrest⟩ := List.forall_mem_cons.mp hafter
    rcases t.isOperand_or_eq_operator with hoperand | ⟨other, rfl⟩
    · rw [arrangeOnto_cons_operand hoperand, arrangeOnto_cons_operand hoperand, ih hrest,
        List.cons_append]
    · rw [arrangeOnto, arrangeOnto]
      split
      · exact ih hrest (other :: stack)
      · have hlt : ¬ other.precedence ≤ op.precedence :=
          Nat.not_le.mpr (Operator.precedence_lt_of_isComparison hop ht)
        obtain ⟨htake, hdrop⟩ := takeWhile_dropWhile_append_cons
          (fun top => decide (other.precedence ≤ top.precedence)) (decide_eq_false hlt) stack []
        rw [htake, hdrop, ← List.cons_append, ih hrest, List.append_assoc]

omit hop

/-! ### Tokens and their programs -/

/-- Whether a program is classified by the comparisons among tokens: it compares exactly when there
is one, and then the rightmost one comes last, after what stands before it and what stands after
it, each arranged by itself. -/
structure Classifies (tokens program : List Token) : Prop where
  isComparison_eq : isComparison program = .ok (tokens.any Token.compares)
  rightmost : tokens.any Token.compares = true → ∃ before op after,
    tokens = before ++ .operator op :: after ∧ op.isComparison = true ∧
      (∀ t ∈ after, t.compares = false) ∧
      program = arrangeOnto [] before ++ arrangeOnto [] after ++ [.operator op]

/-- Where there is something of a sort there is a last one of it. -/
theorem exists_rightmost {tokens : List Token} (h : tokens.any Token.compares = true) :
    ∃ before op after, tokens = before ++ .operator op :: after ∧ op.isComparison = true ∧
      ∀ t ∈ after, t.compares = false := by
  induction tokens with
  | nil => cases h
  | cons t rest ih =>
    by_cases hrest : rest.any Token.compares = true
    · obtain ⟨before, op, after, rfl, hop, hafter⟩ := ih hrest
      exact ⟨t :: before, op, after, rfl, hop, hafter⟩
    · have ht : t.compares = true := by
        rw [List.any_cons, Bool.or_eq_true] at h
        exact h.resolve_right hrest
      obtain ⟨op, rfl, hop⟩ := t.exists_of_compares ht
      refine ⟨[], op, rest, rfl, hop, fun u hu => ?_⟩
      rw [← Bool.not_eq_true]
      exact fun hcompares => hrest (List.any_eq_true.mpr ⟨u, hu, hcompares⟩)

variable {tokens program : List Token}

/-- The program of tokens with a comparison ends with the rightmost one. -/
theorem exists_program_eq_of_any_compares (h : arrange tokens = .ok program)
    (hbetween : ∀ op, .operator op ∈ tokens → op.isComparison = true → op.isPrefix = false)
    (hany : tokens.any Token.compares = true) : ∃ before op after,
      tokens = before ++ .operator op :: after ∧ op.isComparison = true ∧
        (∀ t ∈ after, t.compares = false) ∧
        program = arrangeOnto [] before ++ arrangeOnto [] after ++ [.operator op] := by
  obtain ⟨before, op, after, rfl, hop, hafter⟩ := exists_rightmost hany
  refine ⟨before, op, after, rfl, hop, hafter, ?_⟩
  have hcut : op.isPrefix = false := hbetween op (by simp) hop
  calc program
      = arrangeOnto [] (before ++ .operator op :: after) := (arrange_eq_ok_iff.mp h).1.symm
    _ = arrangeOnto [] before ++ arrangeOnto ([] ++ [op]) after :=
        arrangeOnto_append_comparison hop hcut [] before after
    _ = arrangeOnto [] before ++ arrangeOnto [] after ++ [.operator op] := by
        rw [arrangeOnto_append_bottom hop hafter, List.append_assoc]

/-- **Comparisons classify.** Where comparisons stand between operands, the program of tokens is
classified by them. -/
theorem classifies_of_arrange (h : arrange tokens = .ok program)
    (hbetween : ∀ op, .operator op ∈ tokens → op.isComparison = true → op.isPrefix = false) :
    Classifies tokens program := by
  have hrightmost := exists_program_eq_of_any_compares h hbetween
  refine ⟨?_, hrightmost⟩
  obtain ⟨comparison, hcomparison⟩ := exists_isComparison (arrange_eq_ok_iff.mp h).2
  have hiff : comparison = true ↔ tokens.any Token.compares = true := by
    constructor
    · -- The last operator is one of the tokens, which are those of the program in another order.
      rintro rfl
      obtain ⟨init, op, rfl, -, hop⟩ := isComparison_eq_ok_true_iff.mp hcomparison
      have hperm := arrangeOnto_perm [] tokens
      rw [(arrange_eq_ok_iff.mp h).1, List.map_nil, List.nil_append] at hperm
      exact List.any_eq_true.mpr ⟨.operator op, hperm.subset (by simp), hop⟩
    · intro hany
      obtain ⟨before, op, after, -, hop, -, rfl⟩ := hrightmost hany
      -- A lone operator is no program, so that there is something before the last one.
      have hne : arrangeOnto [] before ++ arrangeOnto [] after ≠ [] := by
        intro hnil
        rw [hnil] at hcomparison
        cases hcomparison
      rw [isComparison_append_operator hne, hop, Except.ok.injEq] at hcomparison
      exact hcomparison.symm
  rw [hcomparison, Bool.eq_iff_iff.mpr hiff]

/-! ### Texts -/

/-- No function compares. -/
theorem Symbol.isFunction_eq_false_of_isComparison {symbol : Symbol}
    (h : symbol.isComparison = true) : symbol.isFunction = false := by
  cases symbol <;> first | rfl | cases h

/-- In a text comparisons stand between operands. -/
theorem not_isPrefix_of_isComparison {source : String} {p : Parsed}
    (h : parse provider source = .ok p) {op : Operator} (hmem : .operator op ∈ p.tokens)
    (hop : op.isComparison = true) :
    op.isPrefix = false := by
  have hwritable := isWritable_of_mem h hmem
  rcases op with ⟨symbol, arity⟩
  cases arity with
  | binary => rfl
  | unary =>
    -- Signs and functions do not compare.
    rcases hwritable with rfl | rfl | hfunction
    · cases hop
    · cases hop
    · rw [Symbol.isFunction_eq_false_of_isComparison hop] at hfunction
      cases hfunction

/-- **Which formulas compare.** A list of tokens that arranges, with its comparisons between
operands, compares exactly when there is a comparison among its tokens, groups not looked into; and
then its program ends with the rightmost one. This is so for every formula that is generated. -/
theorem isComparison_of_comparisons :
    (∀ tokens program, arrange tokens = .ok program →
      (∀ op, .operator op ∈ tokens → op.isComparison = true → op.isPrefix = false) →
      Classifies tokens program) ∧
    ∀ f g : Formula, f.generate = (g, .ok ()) →
      g.isComparison = .ok (g.tokens.any Token.compares) ∧ Classifies g.tokens g.program := by
  refine ⟨fun tokens program => classifies_of_arrange, fun f g hgenerate => ?_⟩
  have hg : g.IsGenerated := Formula.isGenerated_of_generate hgenerate
  have hclassifies : Classifies g.tokens g.program :=
    classifies_of_arrange (parse_eq_ok_iff.mp hg).2 fun op =>
      not_isPrefix_of_isComparison hg
  refine ⟨?_, hclassifies⟩
  rw [Formula.isComparison, Formula.whenGenerated_of_checkShape hg.checkShape]
  exact hclassifies.isComparison_eq

/-- A sign, an arrow and a power stand after the last of two comparisons in `a==b<-c->d**e`; and a
comparison in a group does not count, as in `-(a<b)`. -/
theorem isComparison_of_comparisons_arrow :
    (let tokens : List Token :=
      [.reference "a", .operator (.binary .equal), .reference "b", .operator (.binary .less),
        .operator (.unary .subtract), .reference "c", .operator (.binary .arrow), .reference "d",
        .operator (.binary .power), .reference "e"]
    ∃ program, arrange tokens = .ok program ∧ isComparison program = .ok true ∧
      Classifies tokens program) ∧
    ∃ g, (Formula.ofText "f" .sole "-(a<b)").generate = (g, .ok ()) ∧
      g.isComparison = .ok false := by
  refine ⟨?_, ?_⟩
  · intro tokens
    have hbetween : ∀ op, .operator op ∈ tokens → op.isComparison = true →
        op.isPrefix = false := by
      simp [tokens, Operator.isComparison, Symbol.isComparison]
    have hclassifies := isComparison_of_comparisons.1 tokens _ rfl hbetween
    exact ⟨_, rfl, hclassifies.isComparison_eq, hclassifies⟩
  · let a : Name := ⟨'a', [], rfl, by simp, by decide⟩
    let b : Name := ⟨'b', [], rfl, by simp, by decide⟩
    have hinner : Lexes true (a.text ++ (Symbol.less.text.toList ++ (b.text ++ [])))
        [.reference "a", .operator (.binary .less), .reference "b"] :=
      .cons (.reference a rfl) (.cons (.binary rfl (by rintro ⟨⟩) (by rintro _ ⟨⟩; rfl))
        (.cons (.reference b rfl) (.nil _)))
    have houter : Lexes true (Symbol.subtract.text.toList ++ ('(' :: "a<b".toList ++ [')'] ++ []))
        [.operator (.unary .subtract), .group "a<b"] :=
      .cons (.sign rfl (.inr rfl)) (.cons (.group rfl (by decide)) (.nil _))
    have hgroup : parse .sole "a<b" = .ok ⟨_, _⟩ :=
      parse_of_lexes hinner (.cons rfl (.cons rfl (.cons rfl .nil))) rfl
    have hparse : parse .sole "-(a<b)" = .ok ⟨_, _⟩ :=
      parse_of_lexes houter (.cons rfl (.cons (Lexeme.token_group hgroup) .nil)) rfl
    have hgenerate := Formula.generate_of_parse (f := .ofText "f" .sole "-(a<b)") hparse
    exact ⟨_, hgenerate, (isComparison_of_comparisons.2 _ _ hgenerate).1⟩

end Formulary
