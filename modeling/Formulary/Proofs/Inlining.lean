import Formulary.Proofs.Generated
import Formulary.Proofs.Splicing
import Mathlib.Logic.Function.Basic

/-!
# Values in place of formulas

A name can be bound to the value of a formula, or the text of the formula can be put in place of the
name, in parentheses. It makes no difference. The text with the name replaced has the same lexemes
but for groups in place of names, and a group is an operand like a name: the operators are arranged
among the operands without a look at these, and execution puts one value on the stack for either.
The same is true inside the groups of the text, which are texts with the name replaced.

## Main definitions

* `Environment.bind` — the environment with a name bound to a value by the provider that is asked
* `inlined` — a text with a name replaced by another text in parentheses
* `Token.Alike` — tokens that do the same, each in an environment of its own

## Main results

* `execute_of_alike` — programs of such tokens do the same
* `exists_parse_inlined` — a text with the name replaced parses to such tokens
* `evaluate_inlined` — a text with the name replaced has the value that the text has where the name
  is bound to the value of what replaces it
-/

namespace Formulary

/-! ### Names bound to values -/

/-- The same environment, but for a name that the provider that is asked binds to a value. -/
def Environment.bind (env : Environment) (name : String) (v : Float) : Environment :=
  ⟨Function.update env.bindings env.provider
    (Function.update (env.bindings env.provider) name (some v)), env.provider⟩

section Bind

variable {env : Environment} {name : String} {v : Float}

@[simp] theorem Environment.provider_bind : (env.bind name v).provider = env.provider := rfl

theorem Environment.bind_self : env.bind name v name = some v := by
  simp only [get?, bind, Function.update_self]

theorem Environment.bind_of_ne {name' : String} (h : name' ≠ name) :
    env.bind name v name' = env name' := by
  simp only [get?, bind, Function.update_self, Function.update_of_ne h]

end Bind

/-! ### Tokens that do the same -/

/-- Tokens of which one does in one environment what the other does in another: the same operator,
or operands that have the same effect. -/
inductive Token.Alike (lib : MathLibrary) (env env' : Environment) : Token → Token → Prop where
  | operator (op : Operator) : Alike lib env env' (.operator op) (.operator op)
  | operand {t t' : Token} (ht : t.isOperand = true) (ht' : t'.isOperand = true)
      (h : ∀ stack, t.execute lib env stack = t'.execute lib env' stack) : Alike lib env env' t t'

section Alike

variable {lib : MathLibrary} {env env' : Environment} {l l' : List Token}

/-- Operators are arranged among operands without a look at these. -/
theorem arrangeOnto_of_alike (h : List.Forall₂ (Token.Alike lib env env') l l')
    (stack : List Operator) :
    List.Forall₂ (Token.Alike lib env env') (arrangeOnto stack l) (arrangeOnto stack l') := by
  have hstack : ∀ stack : List Operator, List.Forall₂ (Token.Alike lib env env')
      (stack.map .operator) (stack.map .operator) := by
    intro stack
    rw [List.forall₂_same]
    intro t ht
    obtain ⟨op, -, rfl⟩ := List.mem_map.mp ht
    exact .operator op
  induction h generalizing stack with
  | nil => exact hstack stack
  | cons hab _ ih =>
    cases hab with
    | operator op =>
      rw [arrangeOnto, arrangeOnto]
      split
      · exact ih _
      · exact List.rel_append (hstack _) (ih _)
    | operand ht ht' hexecute =>
      rw [arrangeOnto_cons_operand ht, arrangeOnto_cons_operand ht']
      exact .cons (.operand ht ht' hexecute) (ih _)

theorem depthAfter_of_alike (h : List.Forall₂ (Token.Alike lib env env') l l') (depth : Nat) :
    depthAfter depth l = depthAfter depth l' := by
  induction h generalizing depth with
  | nil => rfl
  | cons hab _ ih =>
    cases hab with
    | operator op => rw [depthAfter, depthAfter, ih]
    | operand ht ht' _ => rw [depthAfter_cons_operand ht, depthAfter_cons_operand ht', ih]

theorem checkShape_of_alike (h : List.Forall₂ (Token.Alike lib env env') l l') :
    checkShape l = checkShape l' := by
  have hempty : l.isEmpty = l'.isEmpty := by
    cases h <;> rfl
  rw [checkShape, checkShape, hempty, depthAfter_of_alike h]

theorem exists_arrange_of_alike (h : List.Forall₂ (Token.Alike lib env env') l l')
    {program : List Token} (hprogram : arrange l = .ok program) :
    ∃ program', arrange l' = .ok program' ∧
      List.Forall₂ (Token.Alike lib env env') program program' := by
  obtain ⟨rfl, hshape⟩ := arrange_eq_ok_iff.mp hprogram
  have halike := arrangeOnto_of_alike h []
  rw [checkShape_of_alike halike] at hshape
  exact ⟨_, arrange_eq_ok_iff.mpr ⟨rfl, hshape⟩, halike⟩

/-- **Programs do the same** if their tokens do. -/
theorem execute_of_alike (h : List.Forall₂ (Token.Alike lib env env') l l') (stack : List Float) :
    execute lib env l stack = execute lib env' l' stack := by
  induction h generalizing stack with
  | nil => rw [execute_nil, execute_nil]
  | @cons t t' _ _ hab _ ih =>
    have ht : t.execute lib env stack = t'.execute lib env' stack := by
      cases hab with
      | operator op => rw [Token.execute, Token.execute]
      | operand _ _ hexecute => exact hexecute stack
    rw [execute_cons, execute_cons, ht]
    cases t'.execute lib env' stack with
    | error e => rfl
    | ok stack' => exact ih stack'

theorem valueOf_of_alike (h : List.Forall₂ (Token.Alike lib env env') l l') :
    valueOf lib env l = valueOf lib env' l' := by
  rw [valueOf, valueOf, execute_of_alike h]

theorem rel_getLast?_of_alike (h : List.Forall₂ (Token.Alike lib env env') l l') :
    Option.Rel (Token.Alike lib env env') l.getLast? l'.getLast? := by
  induction h with
  | nil => exact .none
  | cons hab hrest ih =>
    cases hrest with
    | nil => exact .some hab
    | cons hbc hrest =>
      rw [List.getLast?_cons_cons, List.getLast?_cons_cons]
      exact ih

/-- Programs that do the same end with one operator, or both with an operand. -/
theorem isComparison_of_alike (h : List.Forall₂ (Token.Alike lib env env') l l') :
    isComparison l = isComparison l' := by
  have hlast := rel_getLast?_of_alike h
  cases h with
  | nil => rfl
  | @cons t t' _ _ hab hrest =>
    cases hrest with
    | nil =>
      cases hab with
      | operator op => rfl
      | operand ht ht' _ => rw [isComparison, isComparison, if_pos ht, if_pos ht']
    | @cons u u' rest rest' hbc hrest =>
      generalize ht : (t :: u :: rest).getLast? = last at hlast
      generalize ht' : (t' :: u' :: rest').getLast? = last' at hlast
      cases hlast with
      | none => exact absurd ht (by simp)
      | some hlast =>
        cases hlast with
        | operator op =>
          rw [isComparison_of_last_operator ht, isComparison_of_last_operator ht']
        | operand hlast hlast' _ =>
          rw [isComparison_of_last_operand ht hlast, isComparison_of_last_operand ht' hlast']

end Alike

/-! ### Texts -/

variable {x : Name} {t : String}

/-- The text of a formula, without its blanks, with a name replaced by another text in
parentheses. -/
def inlined (x : Name) (t source : String) : String :=
  String.ofList (splice x t.toList (Text.visible source))

/-- Blanks are left out of what is spliced in as well. -/
theorem filter_splice {cs : List Char} (hcs : ∀ c ∈ cs, Text.isBlank c = false) :
    (splice x t.toList cs).filter (fun c => !Text.isBlank c) = splice x (Text.visible t) cs := by
  have htake : ∀ (good : Char → Bool) {c : Char} {cs : List Char},
      (∀ d ∈ c :: cs, Text.isBlank d = false) →
        (c :: cs.takeWhile good).filter (fun c => !Text.isBlank c) = c :: cs.takeWhile good :=
    fun good c cs hcs => Text.filter_eq_self fun d hd =>
      hcs d (List.cons_subset_cons c (List.takeWhile_sublist good).subset hd)
  have hdrop : ∀ (good : Char → Bool) {c : Char} {cs : List Char},
      (∀ d ∈ c :: cs, Text.isBlank d = false) → ∀ d ∈ cs.dropWhile good, Text.isBlank d = false :=
    fun good c cs hcs d hd =>
      hcs d (List.mem_cons_of_mem c ((List.dropWhile_sublist good).subset hd))
  fun_induction splice x t.toList cs with
  | case1 => rw [splice_nil, List.filter_nil]
  | case2 c cs hc ih =>
    have hparens : ('(' :: t.toList ++ [')']).filter (fun c => !Text.isBlank c)
        = '(' :: Text.visible t ++ [')'] := by
      rw [List.filter_append]
      rfl
    rw [splice, if_pos hc, List.filter_append, ih (hdrop _ hcs), apply_ite (List.filter _), hparens,
      htake _ hcs]
  | case3 c cs hc hnumber ih =>
    rw [splice, if_neg hc, if_pos hnumber, List.filter_append, ih (hdrop _ hcs), htake _ hcs]
  | case4 c cs hc hnumber ih =>
    obtain ⟨hblank, hcs⟩ := List.forall_mem_cons.mp hcs
    rw [splice, if_neg hc, if_neg hnumber, List.filter_cons, ih hcs, hblank]
    rfl

theorem visible_inlined (source : String) :
    Text.visible (inlined x t source) = splice x (Text.visible t) (Text.visible source) := by
  rw [inlined, Text.visible, String.toList_ofList]
  exact filter_splice fun c hc => Text.not_isBlank_of_mem_visible hc

/-- Two lists that are related item by item are both related to a third one, if each pair of items
is related to an item. -/
theorem exists_forall₂ {α β γ : Type} {R : α → β → Prop} {S : α → γ → Prop} {T : β → γ → Prop}
    {l : List α} {m : List β} (h : List.Forall₂ R l m)
    (hstep : ∀ a ∈ l, ∀ b ∈ m, R a b → ∃ c, S a c ∧ T b c) :
    ∃ n, List.Forall₂ S l n ∧ List.Forall₂ T m n := by
  induction h with
  | nil => exact ⟨[], .nil, .nil⟩
  | cons hab _ ih =>
    obtain ⟨c, hac, hbc⟩ := hstep _ List.mem_cons_self _ List.mem_cons_self hab
    obtain ⟨n, hl, hm⟩ := ih fun a ha b hb =>
      hstep a (List.mem_cons_of_mem _ ha) b (List.mem_cons_of_mem _ hb)
    exact ⟨c :: n, .cons hac hl, .cons hbc hm⟩

section Replaced

variable {lib : MathLibrary} {env : Environment} {q : Parsed}
  (ht : parse env.provider t = .ok q) {v : Float} (hv : valueOf lib env q.program = .ok v)

include ht hv

/-- A name does what is put in its place does, where it is bound to the value of that. -/
theorem exists_token_splice_reference (name : String) :
    ∃ b, ((Lexeme.reference name).splice x (Text.visible t)).token env.provider
        (parse env.provider) = .ok b ∧
      Token.Alike lib (env.bind (String.ofList x.text) v) env (.reference name) b := by
  rw [Lexeme.splice]
  split
  · rename_i hname
    have hparse : parse env.provider (String.ofList (Text.visible t)) = .ok q := by
      rw [parse_eq_of_visible_eq (Text.visible_ofList_visible t), ht]
    refine ⟨_, Lexeme.token_group hparse, .operand rfl rfl fun stack => ?_⟩
    rw [Token.execute_group (program_ne_nil_of_parse ht), Environment.asking_provider, hv,
      Token.execute, lookUp, hname, Environment.bind_self]
  · rename_i hname
    refine ⟨_, rfl, .operand rfl rfl fun stack => ?_⟩
    rw [Token.execute, Token.execute, lookUp, lookUp, Environment.bind_of_ne hname]

omit ht hv in
/-- A group does what the group with the name replaced does, if the programs do the same. -/
theorem exists_token_splice_group {env env' : Environment}
    (hprovider : env.provider = env'.provider) {g : String} {p : Parsed}
    (hp : parse env'.provider g = .ok p) (hg : Text.visible g = g.toList) {p' : Parsed}
    (hp' : parse env'.provider (inlined x t g) = .ok p')
    (halike : List.Forall₂ (Token.Alike lib env env') p.program p'.program) :
    ∃ b, ((Lexeme.group g).splice x (Text.visible t)).token env'.provider
        (parse env'.provider) = .ok b ∧
      Token.Alike lib env env' (.group g env'.provider g p.tokens p.program) b := by
  have htext : Text.visible (String.ofList (splice x (Text.visible t) g.toList))
      = Text.visible (inlined x t g) := by
    have hinlined : String.ofList (splice x (Text.visible t) g.toList)
        = inlined x (String.ofList (Text.visible t)) g := by
      rw [inlined, String.toList_ofList, hg]
    rw [hinlined, visible_inlined, visible_inlined, Text.visible_ofList_visible]
  rw [← parse_eq_of_visible_eq htext] at hp'
  refine ⟨_, Lexeme.token_group hp', .operand rfl rfl fun stack => ?_⟩
  rw [Token.execute_group (program_ne_nil_of_parse hp),
    Token.execute_group (program_ne_nil_of_parse hp'), ← hprovider, Environment.asking_provider,
    hprovider, Environment.asking_provider, valueOf_of_alike halike]

/-- **Names are replaced at every depth.** A text with a name replaced by a formula parses, and its
program does what the program of the text does where the name is bound to the value of the
formula. -/
theorem exists_parse_inlined {source : String} {p : Parsed}
    (h : parse env.provider source = .ok p) :
    ∃ p', parse env.provider (inlined x t source) = .ok p' ∧
      List.Forall₂ (Token.Alike lib (env.bind (String.ofList x.text) v) env)
        p.program p'.program := by
  refine parse_induction (motive := fun source p => ∃ p',
      parse env.provider (inlined x t source) = .ok p' ∧
        List.Forall₂ (Token.Alike lib (env.bind (String.ofList x.text) v) env)
          p.program p'.program) (fun {source p} h ih => ?_) h
  -- The text with the name replaced has the lexemes with the name replaced, and each of these has
  -- a token that does what the token in its place does.
  obtain ⟨hlexes, htokens⟩ := lexes_of_parse h
  have hlexemes : lexemesOf (inlined x t source)
      = ⟨(lexemesOf source).lexemes.map (Lexeme.splice x (Text.visible t)), none⟩ := by
    obtain ⟨hbalanced, hne⟩ := balanced_of_parse ht
    rw [lexemesOf_eq_iff_lexes, visible_inlined]
    exact hlexes.splice hbalanced hne
  have hstep : ∀ l ∈ (lexemesOf source).lexemes, ∀ a ∈ p.tokens,
      l.token env.provider (parse env.provider) = .ok a →
      ∃ b, (l.splice x (Text.visible t)).token env.provider (parse env.provider) = .ok b ∧
        Token.Alike lib (env.bind (String.ofList x.text) v) env a b := by
    intro l hl a ha hla
    cases l with
    | constant c =>
      cases hla
      refine ⟨_, rfl, .operand rfl rfl fun stack => ?_⟩
      rw [Token.execute, Token.execute]
    | operator op =>
      cases hla
      exact ⟨_, rfl, .operator op⟩
    | reference name =>
      cases hla
      exact exists_token_splice_reference ht hv name
    | group g =>
      cases hg : parse env.provider g with
      | error e =>
        rw [Lexeme.token, hg] at hla
        cases hla
      | ok r =>
        rw [Lexeme.token_group hg] at hla
        cases hla
        obtain ⟨p', hp', halike⟩ := ih ha
        have hvisible : Text.visible g = g.toList := Text.filter_eq_self fun c hc =>
          Text.not_isBlank_of_mem_visible (hlexes.subset_of_group_mem hl hc)
        exact exists_token_splice_group Environment.provider_bind hg hvisible hp' halike
  obtain ⟨tokens', htokens', halike⟩ := exists_forall₂ htokens hstep
  obtain ⟨program', hprogram', halike'⟩ := exists_arrange_of_alike halike (parse_eq_ok_iff.mp h).2
  exact ⟨_, parse_of_lexemesOf hlexemes (List.forall₂_map_left_iff.mpr htokens') hprogram', halike'⟩

end Replaced

/-- **Values in place of formulas.** Let a text be a formula, and let another one have a value.
Where each occurrence of a name in the text is replaced by the other text in parentheses, the text
is still a formula, and of the same sort; and it has the value, or the failure, that it had where
the name is bound to the value of the other text. -/
theorem evaluate_inlined {lib : MathLibrary} {env : Environment} {name s t : String} {f : Formula}
    {v : Float} (x : Name) (hs : (Formula.ofText name env.provider s).generate = (f, .ok ()))
    (ht : evaluate lib env t = .ok v) :
    (∃ g, (Formula.ofText name env.provider (inlined x t s)).generate = (g, .ok ()) ∧
      g.isComparison = f.isComparison) ∧
    evaluate lib env (inlined x t s)
      = evaluate lib (env.bind (String.ofList x.text) v) s := by
  obtain ⟨q, hq, hv⟩ := exists_parse_of_evaluate ht
  obtain ⟨p, hp, rfl⟩ := Formula.exists_parse_of_generate hs
  replace hp : parse env.provider s = .ok p := hp
  obtain ⟨p', hp', halike⟩ := exists_parse_inlined (x := x) hq hv hp
  have hgenerate :=
    Formula.generate_of_parse (f := .ofText name env.provider (inlined x t s)) hp'
  refine ⟨⟨_, hgenerate, ?_⟩, ?_⟩
  · rw [Formula.isComparison, Formula.isComparison,
      Formula.whenGenerated_of_checkShape (checkShape_of_parse hp'),
      Formula.whenGenerated_of_checkShape (checkShape_of_parse hp), isComparison_of_alike halike]
  · have hbound : parse (env.bind (String.ofList x.text) v).provider s = .ok p := hp
    rw [evaluate_of_parse hp', evaluate_of_parse hbound, valueOf_of_alike halike]

/-- A name in a group: `-(x)` where `x` is bound to the value of `y`, and `-((y))`. -/
theorem evaluate_inlined_in_group :
    ∃ x : Name, ∀ env : Environment, env "y" = some 2.0 →
      inlined x "y" "-(x)" = "-((y))" ∧
      evaluate .system env "-((y))"
        = evaluate .system (env.bind "x" 2.0) "-(x)" := by
  let x : Name := ⟨'x', [], rfl, by simp, by decide⟩
  have hx (provider : Provider) : parse provider "x" = .ok ⟨[.reference "x"], [.reference "x"]⟩ :=
    parse_name (show Text.visible "x" = ['x'] by decide) rfl (by simp) (by decide)
  have hy (provider : Provider) : parse provider "y" = .ok ⟨[.reference "y"], [.reference "y"]⟩ :=
    parse_name (show Text.visible "y" = ['y'] by decide) rfl (by simp) (by decide)
  have hlexemes : lexemesOf "-(x)" = ⟨[.operator (.unary .subtract), .group "x"], none⟩ := by
    have hlexes : Lexes true (Symbol.subtract.text.toList ++ ('(' :: ['x'] ++ [')'] ++ []))
        [.operator (.unary .subtract), .group "x"] :=
      .cons (.sign rfl (.inr rfl)) (.cons (.group rfl (by simp)) (.nil _))
    exact lexemesOf_eq_iff_lexes.mpr hlexes
  refine ⟨x, fun env henv => ?_⟩
  have hs := parse_of_lexemesOf hlexemes
    (.cons rfl (.cons (Lexeme.token_group (hx env.provider)) .nil)) rfl
  have hinlined : inlined x "y" "-(x)" = "-((y))" := by
    have hspliced : splice x ['y'] ['-', '(', 'x', ')'] = "-((y))".toList := by
      simp [splice, x, Name.text, isNameChar]
    exact String.toList_inj.mp ((String.toList_ofList).trans hspliced)
  have ht : evaluate .system env "y" = .ok 2.0 := by
    have hvalue : valueOf .system env [.reference "y"] = .ok 2.0 := by
      rw [valueOf, execute_cons, Token.execute, lookUp, henv]
      rfl
    rw [evaluate_of_parse (hy env.provider), hvalue]
    rfl
  refine ⟨hinlined, ?_⟩
  have hgenerate := Formula.generate_of_parse (f := .ofText "f" env.provider "-(x)") hs
  rw [← hinlined]
  exact (evaluate_inlined x hgenerate ht).2

end Formulary
