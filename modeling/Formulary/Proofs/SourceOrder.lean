import Formulary.Proofs.Generated
import Mathlib.Data.List.Perm.Basic

/-!
# What arranging leaves as it is

Arranging moves operators. It moves nothing else: no token is lost or doubled, and the operands of a
program follow each other as they do in the text. An operator refers to no name and is one line of a
dump, without anything under it. So the names that a formula refers to, which are read off its
program, are met in the same order by going through its text; and a dump of the text differs from a
dump of the program in the places of the lines of operators only.

Groups keep both of their lists, and each of these functions goes through one of the two all the way
down. That the two ways agree is shown of a text when it has been shown of the texts of its groups.

## Main definitions

* `writtenReferences` — the names met by going through tokens as they are written
* `isOperatorLine` — whether a line of a dump shows an operator
* `Dumps` — whether the dumps of two lists of tokens differ in the places of operators only

## Main results

* `filter_isOperand_arrangeOnto` — operands stay in order
* `references_eq_and_dumps` — a text and its program have the same names and the same dumps
* `arrange_keeps_operands` — what arranging leaves as it is, of any list of tokens and of formulas
-/

namespace Formulary

variable {provider : Provider}

/-! ### Names and lines -/

mutual

/-- The names met in a token, those of a group as it is written. -/
def Token.writtenReferences : Token → List String
  | .reference name => [name]
  | .group _ _ _ tokens _ => writtenReferences tokens
  | _ => []

/-- The names met by going through tokens from left to right, and into the groups as they come. -/
def writtenReferences : List Token → List String
  | [] => []
  | t :: ts => t.writtenReferences ++ writtenReferences ts

end

/-- Whether a line of a dump, its indentation dropped, shows an operator. -/
def isOperatorLine (line : String) : Bool :=
  "Operator".toList.isPrefixOf (line.toList.dropWhile (· == ' '))

/-- Lines of a dump without those that show an operator. -/
def withoutOperatorLines (lines : List String) : List String :=
  lines.filter fun line => !isOperatorLine line

theorem writtenReferences_eq_flatMap (tokens : List Token) :
    writtenReferences tokens = tokens.flatMap Token.writtenReferences := by
  induction tokens with
  | nil => simp [writtenReferences]
  | cons t rest ih => rw [writtenReferences, ih, List.flatMap_cons]

theorem references_eq_flatMap (tokens : List Token) :
    references tokens = tokens.flatMap Token.references := by
  induction tokens with
  | nil => simp
  | cons t rest ih => rw [references_cons, ih, List.flatMap_cons]

theorem tokenLines_eq_flatMap (view : View) (indent : String) (tokens : List Token) :
    tokenLines view indent tokens = tokens.flatMap (Token.lines view indent) := by
  induction tokens with
  | nil => simp [tokenLines]
  | cons t rest ih => rw [tokenLines, ih, List.flatMap_cons]

/-! ### Operands -/

theorem filter_isOperand_map_operator (stack : List Operator) :
    (stack.map Token.operator).filter Token.isOperand = [] := by
  simp [Token.isOperand, Token.isOperator]

/-- **Operands stay in order.** The operands of an arrangement are those of the tokens, in the same
order. -/
theorem filter_isOperand_arrangeOnto (stack : List Operator) (tokens : List Token) :
    (arrangeOnto stack tokens).filter Token.isOperand = tokens.filter Token.isOperand := by
  induction tokens generalizing stack with
  | nil => exact filter_isOperand_map_operator stack
  | cons t rest ih =>
    rcases t.isOperand_or_eq_operator with hoperand | ⟨op, rfl⟩
    · rw [arrangeOnto_cons_operand hoperand, List.filter_cons_of_pos hoperand,
        List.filter_cons_of_pos hoperand, ih]
    · rw [List.filter_cons_of_neg (by simp [Token.isOperand, Token.isOperator]), arrangeOnto]
      split
      · exact ih _
      · -- Only operators are let out.
        rw [List.filter_append, filter_isOperand_map_operator, List.nil_append, ih]

/-- The program of a list of tokens is these tokens in another order, and its operands are in the
same one. -/
theorem perm_and_filter_of_arrange {tokens program : List Token}
    (h : arrange tokens = .ok program) :
    program.Perm tokens ∧
      program.filter Token.isOperand = tokens.filter Token.isOperand := by
  obtain ⟨rfl, -⟩ := arrange_eq_ok_iff.mp h
  exact ⟨arrangeOnto_perm [] tokens, filter_isOperand_arrangeOnto [] tokens⟩

/-- What is nothing for operators comes to the same for lists with the same operands. -/
theorem flatMap_eq_of_filter_isOperand {α : Type} {F : Token → List α}
    (hF : ∀ op, F (.operator op) = []) {tokens program : List Token}
    (h : program.filter Token.isOperand = tokens.filter Token.isOperand) :
    program.flatMap F = tokens.flatMap F := by
  have key : ∀ l : List Token, (l.filter Token.isOperand).flatMap F = l.flatMap F := by
    intro l
    induction l with
    | nil => rfl
    | cons t rest ih =>
      rcases t.isOperand_or_eq_operator with hoperand | ⟨op, rfl⟩
      · rw [List.filter_cons_of_pos hoperand, List.flatMap_cons, List.flatMap_cons, ih]
      · rw [List.filter_cons_of_neg (by simp [Token.isOperand, Token.isOperator]), ih,
          List.flatMap_cons, hF, List.nil_append]
  rw [← key program, ← key tokens, h]

/-! ### Lines of operators -/

/-- An indentation is made of spaces. -/
def IsIndent (indent : String) : Prop := ∀ c ∈ indent.toList, c = ' '

theorem IsIndent.deeper {indent : String} (h : IsIndent indent) : IsIndent (indent ++ "  ") := by
  intro c hc
  rw [String.toList_append, List.mem_append] at hc
  rcases hc with hc | hc
  · exact h c hc
  · simpa using hc

/-- Indentation makes no difference to what a line shows. -/
theorem isOperatorLine_append {indent : String} (h : IsIndent indent) (line : String) :
    isOperatorLine (indent ++ line) = isOperatorLine line := by
  have hdrop : (indent ++ line).toList.dropWhile (· == ' ') = line.toList.dropWhile (· == ' ') := by
    rw [String.toList_append, List.dropWhile_append_of_pos]
    intro c hc
    simp [h c hc]
  rw [isOperatorLine, isOperatorLine, hdrop]

/-- The line of a token shows an operator if the token is one. -/
theorem isOperatorLine_text (t : Token) : isOperatorLine t.text = t.isOperator := by
  rw [isOperatorLine, Token.text, Token.line]
  cases t with
  | operator op => simp [Token.kind, Token.isOperator]
  | constant c => cases c <;> simp [Token.kind, Token.isOperator, List.isPrefixOf]
  | reference name => simp [Token.kind, Token.isOperator, List.isPrefixOf]
  | group name provider source tokens program =>
    simp [Token.kind, Token.isOperator, List.isPrefixOf]

/-- Two dumps of the same tokens: the same lines, and in the same order but for operators. -/
structure Dumps (written executed : List String) : Prop where
  perm : written.Perm executed
  rest_eq : withoutOperatorLines written = withoutOperatorLines executed

theorem Dumps.refl (lines : List String) : Dumps lines lines := ⟨.refl _, rfl⟩

theorem Dumps.cons {written executed : List String} (h : Dumps written executed) (line : String) :
    Dumps (line :: written) (line :: executed) := by
  refine ⟨h.perm.cons line, ?_⟩
  have hrest := h.rest_eq
  rw [withoutOperatorLines, withoutOperatorLines] at hrest ⊢
  rw [List.filter_cons, List.filter_cons, hrest]

/-- Nothing is left of an operator without the lines of operators. -/
theorem withoutOperatorLines_operator {indent : String} (h : IsIndent indent) (view : View)
    (op : Operator) : withoutOperatorLines ((Token.operator op).lines view indent) = [] := by
  have hline : isOperatorLine (indent ++ (Token.operator op).text) = true := by
    rw [isOperatorLine_append h, isOperatorLine_text]
    rfl
  show [indent ++ (Token.operator op).text].filter (fun line => !isOperatorLine line) = []
  rw [List.filter_cons_of_neg (by simp [hline]), List.filter_nil]

/-- Tokens and their program have the same dumps if the tokens one by one have. -/
theorem dumps_of_forall {tokens program : List Token} (hperm : program.Perm tokens)
    (hoperands : program.filter Token.isOperand = tokens.filter Token.isOperand) {indent : String}
    (hindent : IsIndent indent)
    (h : ∀ t ∈ tokens, Dumps (t.lines .written indent) (t.lines .executed indent)) :
    Dumps (tokenLines .written indent tokens) (tokenLines .executed indent program) := by
  rw [tokenLines_eq_flatMap, tokenLines_eq_flatMap]
  constructor
  · have hlines : (tokens.flatMap (Token.lines .written indent)).Perm
        (tokens.flatMap (Token.lines .executed indent)) :=
      List.Perm.flatMap_left tokens fun t ht => (h t ht).perm
    exact hlines.trans (hperm.symm.flatMap_right _)
  · have hpush : ∀ (view : View) (l : List Token),
        withoutOperatorLines (l.flatMap (Token.lines view indent))
          = l.flatMap fun t => withoutOperatorLines (t.lines view indent) :=
      fun view l => List.filter_flatMap
    rw [hpush, hpush]
    calc tokens.flatMap (fun t => withoutOperatorLines (t.lines .written indent))
        = tokens.flatMap (fun t => withoutOperatorLines (t.lines .executed indent)) :=
          List.flatMap_congr fun t ht => (h t ht).rest_eq
      _ = program.flatMap (fun t => withoutOperatorLines (t.lines .executed indent)) :=
          (flatMap_eq_of_filter_isOperand
            (fun op => withoutOperatorLines_operator hindent .executed op) hoperands).symm

/-! ### Texts -/

/-- **A text and its program.** The names that a program refers to are met in the same order in the
text, and the dumps of both are the same but for the places of operators. -/
theorem references_eq_and_dumps {source : String} {p : Parsed} (h : parse provider source = .ok p) :
    references p.program = writtenReferences p.tokens ∧ ∀ indent, IsIndent indent →
      Dumps (tokenLines .written indent p.tokens) (tokenLines .executed indent p.program) := by
  refine parse_induction (motive := fun _ p =>
    references p.program = writtenReferences p.tokens ∧ ∀ indent, IsIndent indent →
      Dumps (tokenLines .written indent p.tokens) (tokenLines .executed indent p.program))
    (fun {source p} h ih => ?_) h
  obtain ⟨hperm, hoperands⟩ := perm_and_filter_of_arrange (parse_eq_ok_iff.mp h).2
  constructor
  · have hreferences : ∀ t ∈ p.tokens, t.references = t.writtenReferences := by
      intro t ht
      cases t with
      | group name provider inner written program =>
        rw [Token.references, Token.writtenReferences]
        exact (ih ht).1
      | constant c => rfl
      | reference name => rfl
      | operator op => rfl
    calc references p.program
        = p.program.flatMap Token.references := references_eq_flatMap p.program
      _ = p.tokens.flatMap Token.references :=
          flatMap_eq_of_filter_isOperand (fun op => by simp [Token.references]) hoperands
      _ = p.tokens.flatMap Token.writtenReferences := List.flatMap_congr hreferences
      _ = writtenReferences p.tokens := (writtenReferences_eq_flatMap p.tokens).symm
  · intro indent hindent
    refine dumps_of_forall hperm hoperands hindent fun t ht => ?_
    cases t with
    | group name provider inner written program =>
      rw [Token.lines, Token.lines]
      exact ((ih ht).2 _ hindent.deeper).cons _
    | constant c => exact .refl [indent ++ (Token.constant c).text]
    | reference name => exact .refl [indent ++ (Token.reference name).text]
    | operator op => exact .refl [indent ++ (Token.operator op).text]

/-- **Arranging keeps operands in order.** A list of tokens that arranges has its tokens in its
program, in another order, the operands among them in the same one. So the names that a generated
formula refers to are those met by going through its text from left to right and into the groups as
they come, repetitions kept; and the lines by which it is shown as it is written are those by which
it is shown as it is executed, in another order, the lines that do not show operators in the same
one. -/
theorem arrange_keeps_operands :
    (∀ tokens program, arrange tokens = .ok program → program.Perm tokens ∧
      program.filter Token.isOperand = tokens.filter Token.isOperand) ∧
    ∀ f : Formula, f.IsGenerated →
      f.references = writtenReferences f.tokens ∧
      (f.lines .written).Perm (f.lines .executed) ∧
      withoutOperatorLines (f.lines .written) = withoutOperatorLines (f.lines .executed) := by
  refine ⟨fun tokens program => perm_and_filter_of_arrange, fun f hf => ?_⟩
  obtain ⟨hreferences, hlines⟩ := references_eq_and_dumps hf
  have hempty : IsIndent "" := by simp [IsIndent]
  have hdumps : Dumps (f.lines .written) (f.lines .executed) := by
    rw [Formula.lines, Formula.lines, Formula.toToken, Token.lines, Token.lines]
    exact (hlines _ hempty.deeper).cons _
  exact ⟨hreferences, hdumps.perm, hdumps.rest_eq⟩

/-- In `-(b-c)*b` each list of tokens has another order than its program, and the names come as they
are written in both. -/
theorem arrange_keeps_operands_group :
    ∃ f : Formula, f.IsGenerated ∧ f.source = "-(b-c)*b" ∧ f.program.Perm f.tokens ∧
      f.references = ["b", "c", "b"] ∧ f.lines .written ≠ f.lines .executed ∧
      (f.lines .written).Perm (f.lines .executed) ∧
      withoutOperatorLines (f.lines .written) = withoutOperatorLines (f.lines .executed) := by
  let b : Name := ⟨'b', [], rfl, by simp, by decide⟩
  let c : Name := ⟨'c', [], rfl, by simp, by decide⟩
  have hinner : Lexes true (b.text ++ (Symbol.subtract.text.toList ++ (c.text ++ [])))
      [.reference "b", .operator (.binary .subtract), .reference "c"] :=
    .cons (.reference b rfl) (.cons (.binary rfl (by rintro ⟨⟩) (by rintro _ ⟨⟩; rfl))
      (.cons (.reference c rfl) (.nil _)))
  have houter : Lexes true (Symbol.subtract.text.toList ++
      ('(' :: "b-c".toList ++ [')'] ++ (Symbol.multiply.text.toList ++ (b.text ++ []))))
      [.operator (.unary .subtract), .group "b-c", .operator (.binary .multiply),
        .reference "b"] :=
    .cons (.sign rfl (.inr rfl)) (.cons (.group rfl (by decide)) (.cons
      (.binary rfl (by rintro ⟨⟩) (by rintro _ ⟨⟩; rfl)) (.cons (.reference b rfl) (.nil _))))
  let group : Token := .group "b-c" .sole "b-c"
    [.reference "b", .operator (.binary .subtract), .reference "c"]
    [.reference "b", .reference "c", .operator (.binary .subtract)]
  let f : Formula := ⟨"f", .sole, "-(b-c)*b",
    [.operator (.unary .subtract), group, .operator (.binary .multiply), .reference "b"],
    [group, .operator (.unary .subtract), .reference "b", .operator (.binary .multiply)], none⟩
  have hgroup : parse .sole "b-c" = .ok ⟨_, _⟩ :=
    parse_of_lexes hinner (.cons rfl (.cons rfl (.cons rfl .nil))) rfl
  have hparse : parse .sole "-(b-c)*b" = .ok ⟨f.tokens, f.program⟩ := parse_of_lexes houter
    (.cons rfl (.cons (Lexeme.token_group hgroup) (.cons rfl (.cons rfl .nil)))) rfl
  have hf : f.IsGenerated := hparse
  obtain ⟨harranges, hformulas⟩ := arrange_keeps_operands
  obtain ⟨hreferences, hlines, hrest⟩ := hformulas f hf
  refine ⟨f, hf, rfl, (harranges _ _ (parse_eq_ok_iff.mp hf).2).1, ?_, by decide, hlines, hrest⟩
  rw [hreferences]
  rfl

end Formulary
