import Formulary.Proofs.Literal
import Formulary.Proofs.Nesting
import Formulary.Proofs.Programs
import Formulary.Proofs.Tree

/-!
# Printing and evaluating

A tree is printed with every operand of an operator in parentheses. The printed text has the value
of the tree, and fails exactly when and with what the tree fails; it always parses. The same goes
for any text that differs from it in blanks.

There are three sorts of printed text, and the scanner finds at most three lexemes in each: the
operands of an operator are groups, which it captures without looking into them. Their texts are
printed trees again, and are parsed on their own.

## Main definitions

* `Name` — a name that is not the name of a function, by its parts
* `Leaf`, `Leaf.value` — a number as it is written, or a name
* `Tree.Writable` — whether each symbol is used where it can be written
* `Tree.print` — the text of a tree

## Main results

* `visible_print` — a printed text has no blanks
* `denotes_of_visible_eq_print` — a printed text parses to a program for the tree
* `evaluate_of_visible_eq_print` — evaluating a printed text is evaluating the tree
-/

namespace Formulary

/-! ### Leaves -/

/-- A name that is not the name of a function. -/
structure Name where
  first : Char
  others : List Char
  isAlpha_first : first.isAlpha = true
  isNameChar_others : ∀ c ∈ others, isNameChar c = true
  not_function : Symbol.ofText? (String.ofList (first :: others)) = none

/-- The text of a name. -/
def Name.text (n : Name) : List Char := n.first :: n.others

theorem isNameChar_of_isAlpha {c : Char} (h : c.isAlpha = true) : isNameChar c = true := by
  simp [isNameChar, Char.isAlphanum, h]

theorem Name.isNameChar_text (n : Name) : ∀ c ∈ n.text, isNameChar c = true :=
  List.forall_mem_cons.mpr ⟨isNameChar_of_isAlpha n.isAlpha_first, n.isNameChar_others⟩

/-- A leaf of a tree that can be printed. -/
inductive Leaf where
  /-- A number. -/
  | literal (l : Literal)
  /-- A name whose value is looked up. -/
  | name (n : Name)

namespace Leaf

/-- The text of a leaf. -/
def text : Leaf → List Char
  | literal l => l.text
  | name n => n.text

/-- The value of a leaf. -/
def value (env : Environment) : Leaf → Except EvalError Float
  | literal l => .ok l.constant.value
  | name n => lookUp env (String.ofList n.text)

/-- The leaf as an operand. -/
def operand : Leaf → Operand
  | literal l => .constant l.constant
  | name n => .reference (String.ofList n.text)

theorem value_operand (lib : MathLibrary) (env : Environment) (a : Leaf) :
    a.operand.value lib env = a.value env := by
  cases a <;> rfl

end Leaf

/-! ### Trees -/

/-- Whether a symbol can be written before an operand. -/
def Symbol.IsLeading (symbol : Symbol) : Prop :=
  symbol = .add ∨ symbol = .subtract ∨ symbol.isFunction = true

namespace Tree

variable {α : Type}

/-- Whether each symbol of a tree is used where it can be written: a sign or a function before an
operand, and anything but a function between two. -/
def Writable : Tree α → Prop
  | leaf _ => True
  | unary symbol operand => symbol.IsLeading ∧ operand.Writable
  | binary symbol lhs rhs => symbol.isFunction = false ∧ lhs.Writable ∧ rhs.Writable

/-- The text of a tree. -/
def print : Tree Leaf → List Char
  | leaf a => a.text
  | unary symbol operand => symbol.text.toList ++ ('(' :: operand.print ++ [')'])
  | binary symbol lhs rhs =>
    ('(' :: lhs.print ++ [')']) ++ (symbol.text.toList ++ ('(' :: rhs.print ++ [')']))

end Tree

/-! ### The characters of a text -/

/-- The characters that leaves are written with. -/
def isLeafChar (c : Char) : Bool := isNameChar c || c == '.' || c == '-'

theorem isLeafChar_of_isDigit {c : Char} (h : c.isDigit = true) : isLeafChar c = true := by
  simp [isLeafChar, isNameChar, Char.isAlphanum, h]

theorem isLeafChar_of_isNameChar {c : Char} (h : isNameChar c = true) : isLeafChar c = true := by
  simp [isLeafChar, h]

theorem Exponent.isLeafChar_text (e : Exponent) : ∀ c ∈ e.text, isLeafChar c = true := by
  intro c hc
  simp only [text, List.mem_cons, List.mem_append] at hc
  rcases hc with rfl | hc | hc
  · rcases e.mark_eq with h | h <;> rw [h] <;> decide
  · split at hc
    · rw [List.mem_singleton.mp hc]
      decide
    · cases hc
  · exact isLeafChar_of_isDigit (e.isDigit c hc)

theorem Literal.isLeafChar_text (l : Literal) : ∀ c ∈ l.text, isLeafChar c = true := by
  intro c hc
  simp only [text, List.mem_append] at hc
  rcases hc with hc | hc | hc
  · exact isLeafChar_of_isDigit (l.isDigit_whole c hc)
  · cases hfraction : l.fraction with
    | none => simp [hfraction] at hc
    | some digits =>
      rw [hfraction] at hc
      rcases List.mem_cons.mp hc with rfl | hc
      · decide
      · exact isLeafChar_of_isDigit (l.isDigit_fraction digits hfraction c hc)
  · cases hexponent : l.exponent with
    | none => simp [hexponent] at hc
    | some e =>
      rw [hexponent] at hc
      exact e.isLeafChar_text c hc

theorem Name.isLeafChar_text (n : Name) : ∀ c ∈ n.text, isLeafChar c = true :=
  fun c hc => isLeafChar_of_isNameChar (n.isNameChar_text c hc)

theorem Leaf.isLeafChar_text (a : Leaf) : ∀ c ∈ a.text, isLeafChar c = true := by
  cases a with
  | literal l => exact l.isLeafChar_text
  | name n => exact n.isLeafChar_text

/-- The code points of the characters of names. -/
theorem toNat_of_isNameChar {c : Char} (h : isNameChar c = true) :
    (65 ≤ c.toNat ∧ c.toNat ≤ 90) ∨ (97 ≤ c.toNat ∧ c.toNat ≤ 122) ∨
      (48 ≤ c.toNat ∧ c.toNat ≤ 57) ∨ c = '_' := by
  have hchar : (c.isAlpha || c.isDigit || c == '_') = true := h
  rw [Bool.or_eq_true, Bool.or_eq_true, beq_iff_eq] at hchar
  rcases hchar with (halpha | hdigit) | hunderscore
  · rcases toNat_of_isAlpha halpha with hupper | hlower
    · exact .inl hupper
    · exact .inr (.inl hlower)
  · exact .inr (.inr (.inl (Char.isDigit_iff_toNat.mp hdigit)))
  · exact .inr (.inr (.inr hunderscore))

/-- No blank and no parenthesis can be part of a leaf. -/
theorem of_isLeafChar {c : Char} (h : isLeafChar c = true) :
    Text.isBlank c = false ∧ c ≠ '(' ∧ c ≠ ')' := by
  have hopen : '('.toNat = 40 := rfl
  have hclose : ')'.toNat = 41 := rfl
  have key : ∀ n : Nat, c.toNat = n → (65 ≤ n ∧ n ≤ 90) ∨ (97 ≤ n ∧ n ≤ 122) ∨ (48 ≤ n ∧ n ≤ 57) →
      Text.isBlank c = false ∧ c ≠ '(' ∧ c ≠ ')' := by
    intro n hn h
    refine ⟨?_, ?_, ?_⟩
    · simp [Text.isBlank, Text.blankRanges, hn]
      omega
    · rintro rfl
      omega
    · rintro rfl
      omega
  simp only [isLeafChar, Bool.or_eq_true, beq_iff_eq] at h
  rcases h with (h | rfl) | rfl
  · rcases toNat_of_isNameChar h with h | h | h | rfl
    · exact key _ rfl (.inl h)
    · exact key _ rfl (.inr (.inl h))
    · exact key _ rfl (.inr (.inr h))
    · decide
  · decide
  · decide

theorem Symbol.of_mem_text (symbol : Symbol) : ∀ c ∈ symbol.text.toList,
    Text.isBlank c = false ∧ c ≠ '(' ∧ c ≠ ')' := by
  have hall : (symbol.text.toList.all fun c =>
      !Text.isBlank c && c != '(' && c != ')') = true := by
    cases symbol <;> decide
  intro c hc
  simpa [and_assoc] using List.all_eq_true.mp hall c hc

/-- A text without blanks and parentheses is captured as it stands. -/
theorem captured_of_forall {cs : List Char}
    (h : ∀ c ∈ cs, Text.isBlank c = false ∧ c ≠ '(' ∧ c ≠ ')') : Captured cs := by
  refine .of_forall fun c hc => ⟨(h c hc).2.1, (h c hc).2.2, ?_⟩
  rintro rfl
  exact absurd (h _ hc).1 (by decide)

namespace Tree

theorem print_ne_nil (t : Tree Leaf) : t.print ≠ [] := by
  cases t with
  | leaf a =>
    cases a with
    | literal l =>
      obtain ⟨c, cs, htext, -⟩ := l.exists_text_eq_cons
      rw [print, Leaf.text, htext]
      exact List.cons_ne_nil c cs
    | name n => exact List.cons_ne_nil _ _
  | unary symbol operand => simp [print]
  | binary symbol lhs rhs => simp [print]

/-- A printed text is captured as it stands when it is in parentheses. -/
theorem captured_print (t : Tree Leaf) : Captured t.print := by
  induction t with
  | leaf a => exact captured_of_forall fun c hc => of_isLeafChar (a.isLeafChar_text c hc)
  | unary symbol operand ih => exact (captured_of_forall symbol.of_mem_text).append ih.parens
  | binary symbol lhs rhs ihl ihr =>
    exact ihl.parens.append ((captured_of_forall symbol.of_mem_text).append ihr.parens)

theorem isBlank_of_mem_print (t : Tree Leaf) : ∀ c ∈ t.print, Text.isBlank c = false := by
  have hparens : ∀ cs : List Char, (∀ c ∈ cs, Text.isBlank c = false) →
      ∀ c ∈ '(' :: cs ++ [')'], Text.isBlank c = false := by
    intro cs hcs c hc
    rcases List.mem_append.mp hc with hc | hc
    · rcases List.mem_cons.mp hc with rfl | hc
      · decide
      · exact hcs c hc
    · rw [List.mem_singleton.mp hc]
      decide
  induction t with
  | leaf a => exact fun c hc => (of_isLeafChar (a.isLeafChar_text c hc)).1
  | unary symbol operand ih =>
    intro c hc
    rcases List.mem_append.mp hc with hc | hc
    · exact (symbol.of_mem_text c hc).1
    · exact hparens _ ih c hc
  | binary symbol lhs rhs ihl ihr =>
    intro c hc
    rcases List.mem_append.mp hc with hc | hc
    · exact hparens _ ihl c hc
    · rcases List.mem_append.mp hc with hc | hc
      · exact (symbol.of_mem_text c hc).1
      · exact hparens _ ihr c hc

/-- A printed text has no blanks. -/
theorem visible_print (t : Tree Leaf) : Text.visible (String.ofList t.print) = t.print := by
  rw [Text.visible, String.toList_ofList, List.filter_eq_self]
  intro c hc
  rw [t.isBlank_of_mem_print c hc]
  rfl

end Tree

/-! ### The lexemes of a printed text -/

/-- No symbol goes on with a parenthesis. -/
theorem isPair_open (c : Char) : isPair c '(' = false := isPair_eq_false (by decide) c

/-- A sign or a function stands before a group. -/
theorem scanFrom_leading {symbol : Symbol} (h : symbol.IsLeading) (rest : List Char) :
    scanFrom .start (symbol.text.toList ++ '(' :: rest)
      = (scanFrom .start ('(' :: rest)).after (some (.operator (.unary symbol))) := by
  rcases h with h | h | h
  · exact scanFrom_sign (.inl h) _
  · exact scanFrom_sign (.inr h) _
  · obtain ⟨c, cs, htext, hc, -⟩ := symbol.exists_text_eq_of_isFunction h
    rw [← scanFrom_function h rfl, htext]
    exact scanFrom_start_of_isAlpha hc _

/-- The lexeme of a leaf. -/
def Leaf.lexeme : Leaf → Lexeme
  | .literal l => .constant l.constant
  | .name n => .reference (String.ofList n.text)

/-- A text that is a leaf is one lexeme. -/
theorem Leaf.lexemesOf_text {a : Leaf} {source : String} (h : Text.visible source = a.text) :
    lexemesOf source = ⟨[a.lexeme], none⟩ := by
  rw [lexemesOf, h]
  cases a with
  | literal l =>
    have hstart : scanFrom .start (l.text ++ [endMark]) = scanFrom .top (l.text ++ [endMark]) := by
      obtain ⟨c, cs, htext, hc⟩ := l.exists_text_eq_cons
      rw [htext]
      refine scanFrom_start ?_ ?_ ?_ (cs ++ [endMark]) <;> rintro rfl <;> revert hc <;> decide
    rw [Leaf.text, hstart, l.scanFrom_text rfl, scanFrom_top_end]
    rfl
  | name n =>
    have hstart : scanFrom .start (n.text ++ [endMark]) = scanFrom .top (n.text ++ [endMark]) :=
      scanFrom_start_of_isAlpha n.isAlpha_first _
    have hnext : isNameChar endMark = false := rfl
    rw [Leaf.text, hstart, Name.text,
      scanFrom_reference n.isAlpha_first n.isNameChar_others n.not_function hnext, scanFrom_top_end]
    rfl

theorem Tree.lexemesOf_unary {symbol : Symbol} {operand : Tree Leaf} (h : symbol.IsLeading)
    {source : String} (hs : Text.visible source = (unary symbol operand).print) :
    lexemesOf source
      = ⟨[.operator (.unary symbol), .group (String.ofList operand.print)], none⟩ := by
  calc scanFrom .start (Text.visible source ++ [endMark])
      = scanFrom .start (symbol.text.toList ++ '(' :: (operand.print ++ ')' :: [endMark])) := by
        rw [hs]
        simp [print]
    _ = _ := by
        rw [scanFrom_leading h, ← List.cons_append,
          operand.captured_print.scanFrom_start_group operand.print_ne_nil, scanFrom_top_end]
        rfl

theorem Tree.lexemesOf_binary {symbol : Symbol} {lhs rhs : Tree Leaf}
    (h : symbol.isFunction = false) {source : String}
    (hs : Text.visible source = (binary symbol lhs rhs).print) :
    lexemesOf source
      = ⟨[.group (String.ofList lhs.print), .operator (.binary symbol),
          .group (String.ofList rhs.print)], none⟩ := by
  have hsymbol : ∀ rest, scanFrom .top (symbol.text.toList ++ '(' :: rest)
      = (scanFrom .start ('(' :: rest)).after (some (.operator (.binary symbol))) :=
    fun rest => scanFrom_binary h ('(' :: rest) fun c _ => isPair_open c
  calc scanFrom .start (Text.visible source ++ [endMark])
      = scanFrom .start ('(' :: lhs.print ++ ')' :: (symbol.text.toList ++
          '(' :: (rhs.print ++ ')' :: [endMark]))) := by
        rw [hs]
        simp [print]
    _ = _ := by
        rw [lhs.captured_print.scanFrom_start_group lhs.print_ne_nil, hsymbol, ← List.cons_append,
          rhs.captured_print.scanFrom_start_group rhs.print_ne_nil, scanFrom_top_end]
        rfl

/-! ### The meaning of a printed text -/

/-- A text for a provider stands for a tree: it parses, and its program computes the value of the
tree where the provider is asked. -/
def Denotes (provider : Provider) (source : String) (t : Tree Leaf) : Prop :=
  ∃ p, parse provider source = .ok p ∧ p.program ≠ [] ∧
    ∀ lib bindings, valueOf lib ⟨bindings, provider⟩ p.program
      = t.value lib (Leaf.value ⟨bindings, provider⟩)

namespace Denotes

variable {provider : Provider} {source : String} {t : Tree Leaf}

/-- The text of a tree in parentheses is an operand with the value of the tree. -/
theorem exists_operand (h : Denotes provider source t) : ∃ a : Operand,
    (Lexeme.group source).token provider (parse provider) = .ok a.token ∧
      ∀ lib bindings, a.value lib ⟨bindings, provider⟩
        = t.value lib (Leaf.value ⟨bindings, provider⟩) := by
  obtain ⟨p, hparse, hne, hvalue⟩ := h
  refine ⟨.group source provider source p.tokens p.program, Lexeme.token_group hparse,
    fun lib bindings => ?_⟩
  rw [Operand.value, Formula.value, Formula.whenGenerated, if_neg (by simpa using hne)]
  exact hvalue lib bindings

/-- A text stands for a tree if its tokens are arranged into the listing of a tree of operands that
has the same value. -/
theorem of_listing {lexemes : List Lexeme} {tokens : List Token} {u : Tree Operand}
    (h : lexemesOf source = ⟨lexemes, none⟩)
    (htokens : List.Forall₂ (fun l t => l.token provider (parse provider) = .ok t) lexemes tokens)
    (hlisting : arrangeOnto [] tokens = u.program)
    (hvalue : ∀ lib bindings, u.value lib (Operand.value lib ⟨bindings, provider⟩)
      = t.value lib (Leaf.value ⟨bindings, provider⟩)) :
    Denotes provider source t := by
  have harrange : arrange tokens = .ok u.program :=
    arrange_eq_ok_iff.mpr ⟨hlisting, u.checkShape_program⟩
  refine ⟨_, parse_of_lexemesOf h htokens harrange, u.program_ne_nil, fun lib bindings => ?_⟩
  rw [u.valueOf_program, hvalue]

/-- The value of a text that stands for a tree. -/
theorem evaluate_eq {env : Environment} (h : Denotes env.provider source t) (lib : MathLibrary) :
    evaluate lib env source = (t.value lib (Leaf.value env)).mapError .eval := by
  obtain ⟨p, hparse, -, hvalue⟩ := h
  rw [evaluate_of_parse hparse]
  exact congrArg (Except.mapError Failure.eval) (hvalue lib env.bindings)

end Denotes

/-- **Printed texts stand for their trees**, and so do texts that differ from them in blanks. -/
theorem denotes_of_visible_eq_print (provider : Provider) {t : Tree Leaf} (ht : t.Writable)
    {source : String} (h : Text.visible source = t.print) : Denotes provider source t := by
  induction t generalizing source with
  | leaf a =>
    have htoken : a.lexeme.token provider (parse provider) = .ok a.operand.token := by
      cases a <;> rfl
    have hlisting : arrangeOnto [] [a.operand.token] = (Tree.leaf a.operand).program := by
      cases a <;> rfl
    refine .of_listing (Leaf.lexemesOf_text h) (.cons htoken .nil) hlisting fun lib bindings => ?_
    rw [Tree.value, Tree.value, a.value_operand]
  | unary symbol operand ih =>
    obtain ⟨hsymbol, hwritable⟩ := ht
    obtain ⟨a, htoken, hvalue⟩ := (ih hwritable operand.visible_print).exists_operand
    have hlisting : arrangeOnto [] [.operator (.unary symbol), a.token]
        = (Tree.unary symbol (.leaf a)).program := by
      cases a <;> rfl
    refine .of_listing (Tree.lexemesOf_unary hsymbol h) (.cons rfl (.cons htoken .nil)) hlisting
      fun lib bindings => ?_
    rw [Tree.value, Tree.value, Tree.value, hvalue]
  | binary symbol lhs rhs ihl ihr =>
    obtain ⟨hsymbol, hl, hr⟩ := ht
    obtain ⟨a, ha, hvaluea⟩ := (ihl hl lhs.visible_print).exists_operand
    obtain ⟨b, hb, hvalueb⟩ := (ihr hr rhs.visible_print).exists_operand
    have hlisting : arrangeOnto [] [a.token, .operator (.binary symbol), b.token]
        = (Tree.binary symbol (.leaf a) (.leaf b)).program := by
      cases a <;> cases b <;> rfl
    refine .of_listing (Tree.lexemesOf_binary hsymbol h) (.cons ha (.cons rfl (.cons hb .nil)))
      hlisting fun lib bindings => ?_
    rw [Tree.value, Tree.value, Tree.value, Tree.value, hvaluea, hvalueb]

/-- **Printing keeps meaning.** Evaluating a text that is a printed tree once its blanks are left
out is evaluating the tree: it gives the same value, or fails with what the first node of the tree
fails with that fails, its nodes taken operands first and from the left. -/
theorem evaluate_of_visible_eq_print {t : Tree Leaf} (ht : t.Writable) {source : String}
    (h : Text.visible source = t.print) (lib : MathLibrary) (env : Environment) :
    evaluate lib env source = (t.value lib (Leaf.value env)).mapError .eval ∧
      failure? (t.value lib (Leaf.value env))
        = t.subtrees.findSome? fun u => failure? (u.value lib (Leaf.value env)) :=
  ⟨(denotes_of_visible_eq_print env.provider ht h).evaluate_eq lib,
    t.failure?_value lib (Leaf.value env)⟩

/-- A printed power with blanks in it, evaluated where its second operand has no value. -/
theorem evaluate_printed_power_unresolved : ∃ t : Tree Leaf, t.Writable ∧
    Text.visible " - ( (2.5) * * (x_1) )" = t.print ∧
      evaluate .system (.ofLookup fun _ => none) " - ( (2.5) * * (x_1) )"
        = (t.value .system (Leaf.value (.ofLookup fun _ => none))).mapError .eval ∧
      evaluate .system (.ofLookup fun _ => none) " - ( (2.5) * * (x_1) )"
        = .error (.eval (.unresolved "x_1")) := by
  let lhs : Literal := ⟨['2'], some ['5'], none, by simp, by simp, .inr rfl, by decide⟩
  let rhs : Name := ⟨'x', ['_', '1'], rfl, List.all_eq_true.mp rfl, by decide⟩
  let t : Tree Leaf :=
    .unary .subtract (.binary .power (.leaf (.literal lhs)) (.leaf (.name rhs)))
  have ht : t.Writable := ⟨.inr (.inl rfl), rfl, trivial, trivial⟩
  have hprint : Text.visible " - ( (2.5) * * (x_1) )" = t.print := by decide
  have hvalue := (evaluate_of_visible_eq_print ht hprint .system (.ofLookup fun _ => none)).1
  exact ⟨t, ht, hprint, hvalue, hvalue.trans rfl⟩

end Formulary
