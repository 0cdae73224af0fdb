import Formulary.Proofs.Climbing
import Formulary.Proofs.Nesting
import Mathlib.Data.List.Chain

/-!
# What counting lets through

Whether tokens are a formula is decided by counting values in their arrangement. Counting notices
when operands and operators do not match in number, but operands that stand side by side can be
made up for by an operator elsewhere: `2(3)+`, `*(2)(3)` and `(4)sqrt` all count right, and are
evaluated, although none of them is a formula.

Side by side is the whole of it. When nothing but an operator between operands follows an operand,
each operand but the last uses up one such operator, so the numbers match only if there is no other
one: not at the front, not after an operator and not at the end.

## Main definitions

* `Token.joins` — whether a token stands between operands
* `Separated` — whether nothing but such a token follows an operand

## Main results

* `countP_isOperand_of_arrange` — tokens that arrange have one operand more than joining operators
* `countP_isOperand_of_separated` — for separated tokens these numbers decide
* `isInfix_iff_separated_of_within` — a parsed text is well formed, at every depth, exactly where it
  is separated
-/

namespace Formulary

variable {provider : Provider}

/-- Whether a token is an operator that stands between operands. -/
def Token.joins : Token → Bool
  | .operator op => !op.isPrefix
  | _ => false

/-- Whether no operand is followed directly by another operand or by an operator that stands before
its operand, such as the name of a function. -/
def Separated (tokens : List Token) : Prop :=
  tokens.IsChain fun t next => t.isOperand = true → next.joins = true

instance (tokens : List Token) : Decidable (Separated tokens) :=
  inferInstanceAs (Decidable (List.IsChain _ _))

@[simp] theorem isOperand_token (a : Operand) : a.token.isOperand = true := by
  cases a <;> rfl

@[simp] theorem joins_token (a : Operand) : a.token.joins = false := by
  cases a <;> rfl

@[simp] theorem isOperand_operator (op : Operator) : (Token.operator op).isOperand = false := rfl

@[simp] theorem joins_operator (op : Operator) : (Token.operator op).joins = !op.isPrefix := rfl

@[simp] theorem isInfix_token_cons (a : Operand) (rest : List Token) :
    isInfix (a.token :: rest) = isTail rest := by
  cases a <;> rfl

@[simp] theorem isTail_token_cons (a : Operand) (rest : List Token) :
    isTail (a.token :: rest) = false := by
  cases a <;> rfl

/-! ### Counting -/

/-- Execution adds a value for each operand and takes one away for each operator that joins two. -/
theorem add_countP_of_depthAfter {depth depth' : Nat} {program : List Token}
    (h : depthAfter depth program = .ok depth') :
    depth' + program.countP Token.joins = depth + program.countP Token.isOperand := by
  induction program generalizing depth with
  | nil =>
    cases h
    simp
  | cons t rest ih =>
    rcases t.eq_token_or_eq_operator with ⟨a, rfl⟩ | ⟨op, rfl⟩
    · rw [depthAfter_cons_operand (isOperand_token a)] at h
      have := ih h
      simp
      omega
    · rw [depthAfter] at h
      split at h
      · cases h
      · rename_i hfound
        have := ih h
        rw [op.count_arity] at hfound this
        cases hop : op.isPrefix <;> simp [hop] at hfound this ⊢ <;> omega

/-- Tokens that arrange have one operand more than operators that join two. -/
theorem countP_isOperand_of_arrange {tokens program : List Token}
    (h : arrange tokens = .ok program) :
    tokens.countP Token.isOperand = tokens.countP Token.joins + 1 := by
  obtain ⟨rfl, hshape⟩ := arrange_eq_ok_iff.mp h
  have hperm := arrangeOnto_perm [] tokens
  rw [List.map_nil, List.nil_append] at hperm
  have hcount := add_countP_of_depthAfter (depthAfter_of_checkShape hshape).2
  rw [hperm.countP_eq, hperm.countP_eq] at hcount
  omega

/-- What can follow an operand without being side by side with it: nothing, or an operator that
joins it to another one. -/
def StartsJoined (tokens : List Token) : Prop := ∀ t ∈ tokens.head?, t.joins = true

/-- **Counting separated tokens.** There is at most one operand more than joining operators, and it
is there exactly in a formula; after an operand there is none more, and the numbers match exactly
in what can follow it. -/
theorem countP_isOperand_of_separated {tokens : List Token} (h : Separated tokens) :
    (tokens.countP Token.isOperand ≤ tokens.countP Token.joins + 1 ∧
      (isInfix tokens = true ↔
        tokens.countP Token.isOperand = tokens.countP Token.joins + 1)) ∧
    (StartsJoined tokens → tokens.countP Token.isOperand ≤ tokens.countP Token.joins ∧
      (isTail tokens = true ↔ tokens.countP Token.isOperand = tokens.countP Token.joins)) := by
  induction tokens with
  | nil => simp [isInfix, isTail]
  | cons t rest ih =>
    obtain ⟨⟨hle, hiff⟩, htail⟩ := ih h.of_cons
    rcases t.eq_token_or_eq_operator with ⟨a, rfl⟩ | ⟨op, rfl⟩
    · have hjoined : StartsJoined rest := by
        intro next hnext
        cases rest with
        | nil => cases hnext
        | cons first rest =>
          cases hnext
          exact h.rel (isOperand_token a)
      obtain ⟨hle', hiff'⟩ := htail hjoined
      refine ⟨⟨?_, ?_⟩, fun hstarts => ?_⟩
      · simp
        omega
      · rw [isInfix_token_cons, hiff']
        simp
      · exact absurd (hstarts _ rfl) (by simp)
    · cases hop : op.isPrefix with
      | true =>
        refine ⟨⟨?_, ?_⟩, fun hstarts => ?_⟩
        · simpa [hop] using hle
        · simpa [isInfix, hop] using hiff
        · exact absurd (hstarts _ rfl) (by simp [hop])
      | false =>
        have hnot : isInfix (.operator op :: rest) = false := by simp [isInfix, hop]
        refine ⟨⟨?_, ?_⟩, fun _ => ⟨?_, ?_⟩⟩
        · simp [hop]
          omega
        · simp [hnot, hop]
          omega
        · simpa [hop] using hle
        · simpa [isTail, hop] using hiff

theorem separated_cons {t : Token} {rest : List Token} (h : Separated rest)
    (ht : t.isOperand = true → StartsJoined rest) : Separated (t :: rest) :=
  List.isChain_cons.mpr ⟨fun next hnext hoperand => ht hoperand next hnext, h⟩

/-- A formula is separated, and so is what can follow an operand. -/
theorem separated_of_isInfix_or_isTail (tokens : List Token) :
    (isInfix tokens = true → Separated tokens) ∧
      (isTail tokens = true → Separated tokens ∧ StartsJoined tokens) := by
  induction tokens with
  | nil => exact ⟨fun _ => List.isChain_nil, fun _ => ⟨List.isChain_nil, by rintro t ⟨⟩⟩⟩
  | cons t rest ih =>
    rcases t.eq_token_or_eq_operator with ⟨a, rfl⟩ | ⟨op, rfl⟩
    · refine ⟨fun h => ?_, fun h => by simp at h⟩
      obtain ⟨hrest, hstarts⟩ := ih.2 (by simpa using h)
      exact separated_cons hrest fun _ => hstarts
    · refine ⟨fun h => ?_, fun h => ?_⟩
      · simp only [isInfix, Bool.and_eq_true] at h
        exact separated_cons (ih.1 h.2) (by simp)
      · simp only [isTail, Bool.and_eq_true] at h
        refine ⟨separated_cons (ih.1 h.2) (by simp), ?_⟩
        rintro t ⟨⟩
        exact h.1

/-- **Side by side is the whole of it.** Tokens are a formula exactly when they arrange and are
separated. -/
theorem isInfix_iff_arrange_and_separated (tokens : List Token) :
    isInfix tokens = true ↔ (∃ program, arrange tokens = .ok program) ∧ Separated tokens := by
  constructor
  · intro h
    obtain ⟨t, _, harrange⟩ := exists_arrange_eq_program h
    exact ⟨⟨_, harrange⟩, (separated_of_isInfix_or_isTail tokens).1 h⟩
  · rintro ⟨⟨program, harrange⟩, hseparated⟩
    exact (countP_isOperand_of_separated hseparated).1.2.mpr (countP_isOperand_of_arrange harrange)

/-- A name in parentheses and an operator after it that stands between operands. -/
theorem parse_name_group_operator : ∃ program, parse provider "a(b)+" = .ok
    ⟨[.reference "a", .group "b" provider "b" [.reference "b"] [.reference "b"],
      .operator (.binary .add)], program⟩ := by
  have hb : parse provider "b" = .ok ⟨[.reference "b"], [.reference "b"]⟩ :=
    parse_name (show Text.visible "b" = ['b'] by decide) rfl (by simp) (by decide)
  have hlexemes : lexemesOf "a(b)+"
      = ⟨[.reference "a", .group "b", .operator (.binary .add)], none⟩ := by
    have hb : Captured ['b'] := .of_forall (by simp [endMark])
    have hadd : scanFrom .top (Symbol.add.text.toList ++ [endMark])
        = (scanFrom .start [endMark]).after (some (.operator (.binary .add))) :=
      scanFrom_binary rfl [endMark] fun c _ => isPair_eq_false (by decide) c
    calc scanFrom .start (Text.visible "a(b)+" ++ [endMark])
        = scanFrom .start ('a' :: '(' :: ['b'] ++ ')' :: (Symbol.add.text.toList ++ [endMark])) :=
          congrArg (scanFrom .start) (by decide)
      _ = scanFrom .top ('a' :: [] ++ '(' :: (['b'] ++ ')' :: (Symbol.add.text.toList ++
            [endMark]))) := scanFrom_start_of_isAlpha rfl _
      _ = ⟨[.reference "a", .group "b", .operator (.binary .add)], none⟩ := by
          rw [scanFrom_reference rfl (by simp) (by decide) rfl, ← List.cons_append,
            hb.scanFrom_group (by simp), hadd, scanFrom_start_end]
          rfl
  exact ⟨_, parse_of_lexemesOf hlexemes
    (.cons rfl (.cons (Lexeme.token_group hb) (.cons rfl .nil))) rfl⟩

/-- **Where parsed texts are well formed.** In a text that parses, the tokens at each depth are a
formula exactly when they are separated. -/
theorem isInfix_iff_separated_of_within {source : String} {p : Parsed}
    (h : parse provider source = .ok p) {tokens : List Token} (hw : Within tokens p.tokens) :
    isInfix tokens = true ↔ Separated tokens := by
  obtain ⟨inner, program, hinner⟩ := exists_parse_of_within h hw
  have harrange : arrange tokens = .ok program := (parse_eq_ok_iff.mp hinner).2
  rw [isInfix_iff_arrange_and_separated]
  exact and_iff_right ⟨program, harrange⟩

/-- Inside the group of `(a(b)+)` an operand is followed by another one. -/
theorem isInfix_iff_separated_in_group : ∃ p, parse .sole "(a(b)+)" = .ok p ∧
    ∃ tokens, Within tokens p.tokens ∧ tokens.length = 3 ∧
      (isInfix tokens = true ↔ Separated tokens) := by
  obtain ⟨program, hinner⟩ := parse_name_group_operator
  have hlexemes : lexemesOf "(a(b)+)" = ⟨[.group "a(b)+"], none⟩ := by
    have ha : Captured ['a'] := .of_forall (by simp [endMark])
    have hb : Captured ['b'] := .of_forall (by simp [endMark])
    have hadd : Captured ['+'] := .of_forall (by simp [endMark])
    calc scanFrom .start (Text.visible "(a(b)+)" ++ [endMark])
        = scanFrom .start ('(' :: (['a'] ++ ('(' :: ['b'] ++ [')'] ++ ['+'])) ++
            ')' :: [endMark]) := congrArg (scanFrom .start) (by decide)
      _ = ⟨[.group "a(b)+"], none⟩ := by
          rw [(ha.append (hb.parens.append hadd)).scanFrom_start_group (by simp), scanFrom_top_end]
          rfl
  have houter := parse_of_lexemesOf hlexemes (.cons (Lexeme.token_group hinner) .nil) rfl
  refine ⟨_, houter, _, .group (List.mem_singleton_self _) (.self _), rfl, ?_⟩
  exact isInfix_iff_separated_of_within houter (.group (List.mem_singleton_self _) (.self _))

/-- **Not every parsed text is well formed.** The name of a function may stand after its operand. -/
theorem exists_parse_of_not_isInfix : ¬ ∀ provider source p, parse provider source = .ok p →
    ∀ tokens, Within tokens p.tokens → isInfix tokens = true := by
  intro h
  have ha : parse .sole "a" = .ok ⟨[.reference "a"], [.reference "a"]⟩ :=
    parse_name (show Text.visible "a" = ['a'] by decide) rfl (by simp) (by decide)
  have hlexemes : lexemesOf "(a)sqrt" = ⟨[.group "a", .operator (.unary .sqrt)], none⟩ := by
    have ha : Captured ['a'] := .of_forall (by simp [endMark])
    calc scanFrom .start (Text.visible "(a)sqrt" ++ [endMark])
        = scanFrom .start ('(' :: ['a'] ++ ')' :: (Symbol.sqrt.text.toList ++ [endMark])) :=
          congrArg (scanFrom .start) (by decide)
      _ = ⟨[.group "a", .operator (.unary .sqrt)], none⟩ := by
          rw [ha.scanFrom_start_group (by simp), scanFrom_function rfl rfl, scanFrom_start_end]
          rfl
  have hparse := parse_of_lexemesOf hlexemes
    (.cons (Lexeme.token_group ha) (.cons rfl .nil)) rfl
  exact absurd (h .sole _ _ hparse _ (.self _)) (by decide)

end Formulary
