import Formulary.Proofs.FiniteNumbers
import Formulary.Proofs.Generated

/-!
# Where infinities come from

Functions and powers have two guards. A NaN that comes of numbers is refused, and so is an infinity
that comes of finite numbers. The guards of functions and of powers are written differently, but
they come to the same for finite operands: what is not finite is refused, whatever the mathematical
library returns. The four operations of arithmetic have no guard, but for the division by zero, and
can overflow.

An execution is a sequence of steps, each of which puts one value on a stack; the steps in a group
come before the step of the group. As long as all values are finite, only a step of arithmetic can
give one that is not. So the first value that is a NaN or infinite, at whatever depth, is the result
of arithmetic on finite operands, provided that the numbers in the text and the values of its names
are finite. Whole numbers always are.

## Main definitions

* `Step`, `steps` — the values that are put on stacks in an execution, in order
* `Step.isWild` — whether such a value is a NaN or infinite
* `Step.IsArithmetic` — whether it is the result of arithmetic on finite operands
* `Occurs` — the tokens that are executed, those in groups included

## Main results

* `mem_or_exists_of_execute` — what is on a stack has been put there by a step
* `isArithmetic_of_find?_steps` — the first wild value comes of arithmetic
* `isFinite_of_occurs` — the whole numbers in a text are finite
* `infinities_come_of_arithmetic` — the same of generated formulas
-/

namespace Formulary

/-! ### Steps -/

/-- A value that is put on a stack: the token that does it, the stack before, and the value. -/
structure Step where
  token : Token
  stack : List Float
  value : Float

/-- Whether a step gives a NaN or an infinity. -/
def Step.isWild (s : Step) : Bool := s.value.isNaN || s.value.isInf

/-- The operators of arithmetic. -/
def Symbol.arithmetic : List Symbol := [add, subtract, multiply, divide]

section Steps

variable (lib : MathLibrary)

/-- Whether a step is one of arithmetic on finite operands, and not a division by zero. -/
def Step.IsArithmetic (s : Step) : Prop :=
  ∃ symbol ∈ Symbol.arithmetic, ∃ lhs rhs rest,
    s.token = .operator (.binary symbol) ∧ s.stack = rhs :: lhs :: rest ∧
      lhs.isFinite = true ∧ rhs.isFinite = true ∧
      (symbol = .divide → rhs ≠ 0.0 ∧ rhs ≠ -0.0) ∧
      applyBinary lib symbol lhs rhs = .ok s.value

/-- The step of a token itself, if it succeeds. -/
def Token.ownStep (env : Environment) (t : Token) (stack : List Float) : List Step :=
  match t.execute lib env stack with
  | .ok (v :: _) => [⟨t, stack, v⟩]
  | _ => []

mutual

/-- The steps inside a token, which are those of the program of a group where its provider is
asked. -/
def Token.innerSteps (env : Environment) : Token → List Step
  | .group _ provider _ _ program => steps (env.asking provider) program []
  | _ => []

/-- The steps of a list of tokens that are executed in order. -/
def steps (env : Environment) : List Token → List Float → List Step
  | [], _ => []
  | t :: rest, stack =>
    t.innerSteps env ++ t.ownStep lib env stack ++
      match t.execute lib env stack with
      | .error _ => []
      | .ok left => steps env rest left

end

end Steps

/-- The tokens that are executed: those of a program and of the programs of its groups. -/
inductive Occurs (t : Token) : List Token → Prop where
  | here {program : List Token} (h : t ∈ program) : Occurs t program
  | inside {name : String} {provider : Provider} {source : String}
      {tokens inner program : List Token}
      (hmem : .group name provider source tokens inner ∈ program) (h : Occurs t inner) :
      Occurs t program

theorem Occurs.mono {t : Token} {program program' : List Token} (h : Occurs t program)
    (hsubset : program ⊆ program') : Occurs t program' := by
  cases h with
  | here hmem => exact .here (hsubset hmem)
  | inside hmem h => exact .inside (hsubset hmem) h

variable {lib : MathLibrary} {env : Environment}

/-! ### What steps tell -/

/-- A token that does not fail puts the value of its step on what is left of the stack. -/
theorem Token.exists_step_of_execute {t : Token} {stack left : List Float}
    (h : t.execute lib env stack = .ok left) :
    ∃ v rest, left = v :: rest ∧ rest ⊆ stack ∧ t.ownStep lib env stack = [⟨t, stack, v⟩] := by
  obtain ⟨v, rest, rfl, hrest⟩ : ∃ v rest, left = v :: rest ∧ rest ⊆ stack := by
    cases t with
    | constant c =>
      rw [Token.execute] at h
      cases h
      exact ⟨_, _, rfl, List.Subset.refl _⟩
    | reference name =>
      rw [Token.execute] at h
      obtain ⟨v, -, rfl⟩ := map_eq_ok_iff.mp h
      exact ⟨_, _, rfl, List.Subset.refl _⟩
    | group name provider source tokens program =>
      obtain ⟨v, -, rfl⟩ := Token.exists_valueOf_of_execute_group h
      exact ⟨_, _, rfl, List.Subset.refl _⟩
    | operator op =>
      rw [Token.execute] at h
      obtain ⟨v, rest, rfl, ⟨x, rfl, -⟩ | ⟨lhs, rhs, rfl, -⟩⟩ := exists_of_applyOperator h
      · exact ⟨v, rest, rfl, List.subset_cons_self _ _⟩
      · exact ⟨v, rest, rfl, fun x hx => by simp [hx]⟩
  exact ⟨v, rest, rfl, hrest, by rw [Token.ownStep, h]⟩

theorem steps_cons_of_execute {t : Token} {rest : List Token} {stack between : List Float}
    (h : t.execute lib env stack = .ok between) : steps lib env (t :: rest) stack
      = t.innerSteps lib env ++ t.ownStep lib env stack ++ steps lib env rest between := by
  rw [steps, h]

/-- The steps of two pieces of a program are those of the first one and then those of the second
one. -/
theorem steps_append_of_execute {program rest : List Token} {stack between : List Float}
    (h : execute lib env program stack = .ok between) : steps lib env (program ++ rest) stack
      = steps lib env program stack ++ steps lib env rest between := by
  induction program generalizing stack with
  | nil =>
    rw [execute_nil, Except.ok.injEq] at h
    subst h
    rfl
  | cons t program ih =>
    obtain ⟨first, ht, hprogram⟩ := execute_cons_eq_ok_iff.mp h
    rw [List.cons_append, steps_cons_of_execute ht, steps_cons_of_execute ht, ih hprogram]
    simp only [List.append_assoc]

/-- **Every value has a step.** What is on the stack after an execution was there before, or is the
value of a step. -/
theorem mem_or_exists_of_execute {program : List Token} {stack left : List Float}
    (h : execute lib env program stack = .ok left) :
    ∀ x ∈ left, x ∈ stack ∨ ∃ s ∈ steps lib env program stack, s.value = x := by
  induction program generalizing stack with
  | nil =>
    rw [execute_nil, Except.ok.injEq] at h
    subst h
    exact fun x hx => .inl hx
  | cons t rest ih =>
    obtain ⟨between, ht, hrest⟩ := execute_cons_eq_ok_iff.mp h
    intro x hx
    rw [steps_cons_of_execute ht]
    rcases ih hrest x hx with hx | ⟨s, hs, rfl⟩
    · obtain ⟨v, left, rfl, hsubset, hown⟩ := t.exists_step_of_execute ht
      rcases List.mem_cons.mp hx with rfl | hx
      · exact .inr ⟨⟨t, stack, x⟩, by simp [hown], rfl⟩
      · exact .inl (hsubset hx)
    · exact .inr ⟨s, List.mem_append_right _ hs, rfl⟩

/-- The value of a program is that of its last step. -/
theorem getLast?_steps_of_valueOf {program : List Token} {v : Float}
    (h : valueOf lib env program = .ok v) :
    (steps lib env program []).getLast?.map Step.value = some v := by
  have hexecute := valueOf_eq_ok_iff.mp h
  rcases List.eq_nil_or_concat program with rfl | ⟨init, last, rfl⟩
  · rw [execute_nil] at hexecute
    cases hexecute
  · rw [List.concat_eq_append] at hexecute ⊢
    obtain ⟨between, hinit, hlast⟩ := execute_append_eq_ok_iff.mp hexecute
    rw [execute_singleton] at hlast
    obtain ⟨w, rest, hleft, -, hown⟩ := last.exists_step_of_execute hlast
    cases hleft
    rw [steps_append_of_execute hinit, steps_cons_of_execute hlast, hown]
    simp [steps]

mutual

/-- The token of a step inside a token occurs in the token. -/
theorem Token.occurs_of_mem_innerSteps {env : Environment} (t : Token) {s : Step}
    (hs : s ∈ t.innerSteps lib env) : Occurs s.token [t] := by
  match t with
  | .constant c | .reference name | .operator op => cases hs
  | .group name provider source tokens program =>
    rw [Token.innerSteps] at hs
    exact .inside List.mem_cons_self (occurs_of_mem_steps program hs)

/-- The token of a step is one of those that are executed. -/
theorem occurs_of_mem_steps {env : Environment} (program : List Token) {stack : List Float}
    {s : Step} (hs : s ∈ steps lib env program stack) : Occurs s.token program := by
  match program with
  | [] => cases hs
  | t :: rest =>
    rw [steps, List.mem_append, List.mem_append] at hs
    rcases hs with (hs | hs) | hs
    · exact (t.occurs_of_mem_innerSteps hs).mono (by simp)
    · rw [Token.ownStep] at hs
      split at hs
      · obtain rfl := List.mem_singleton.mp hs
        exact .here List.mem_cons_self
      · cases hs
    · split at hs
      · cases hs
      · exact (occurs_of_mem_steps rest hs).mono (List.subset_cons_self _ _)

end

/-! ### Guards -/

theorem isFinite_iff {x : Float} : x.isFinite = true ↔ x.isNaN = false ∧ x.isInf = false := by
  rw [isFinite_eq, Bool.and_eq_true, Bool.not_eq_true', Bool.not_eq_true']

theorem Step.isWild_eq_false_iff (s : Step) : s.isWild = false ↔ s.value.isFinite = true := by
  rw [Step.isWild, Bool.or_eq_false_iff, isFinite_iff]

/-- What an operator before its operand makes of a finite number is finite. -/
theorem isFinite_of_applyUnary {symbol : Symbol} {x v : Float}
    (h : applyUnary lib symbol x = .ok v) (hx : x.isFinite = true) : v.isFinite = true := by
  rw [applyUnary] at h
  split at h
  · cases h
  · dsimp only at h
    split at h
    · cases h
    · rename_i hguard
      obtain rfl := Except.ok.inj h
      obtain ⟨hnan, -⟩ := isFinite_iff.mp hx
      simp only [hx, hnan, Bool.not_false, Bool.and_true, Bool.or_eq_true, not_or,
        Bool.not_eq_true] at hguard
      exact isFinite_iff.mpr hguard

/-- A power of finite numbers is finite. -/
theorem isFinite_of_applyPower {lhs rhs v : Float} (h : applyPower lib lhs rhs = .ok v)
    (hlhs : lhs.isFinite = true) (hrhs : rhs.isFinite = true) : v.isFinite = true := by
  rw [applyPower] at h
  split at h
  · cases h
  · rename_i hguard
    obtain rfl := Except.ok.inj h
    obtain ⟨hnanLhs, -⟩ := isFinite_iff.mp hlhs
    obtain ⟨hnanRhs, -⟩ := isFinite_iff.mp hrhs
    simp only [hlhs, hrhs, hnanLhs, hnanRhs, Bool.not_false, Bool.and_true, Bool.or_eq_true, not_or,
      Bool.not_eq_true] at hguard
    exact isFinite_iff.mpr hguard

theorem isFinite_truth (b : Bool) : (truth b).isFinite = true := by
  cases b <;> decide

/-- What an operator between finite operands makes of them is finite, unless it is one of
arithmetic. -/
theorem isFinite_of_applyBinary {symbol : Symbol} {lhs rhs v : Float}
    (h : applyBinary lib symbol lhs rhs = .ok v) (hlhs : lhs.isFinite = true)
    (hrhs : rhs.isFinite = true) (hsymbol : symbol ∉ Symbol.arithmetic) : v.isFinite = true := by
  cases symbol with
  | add | subtract | multiply | divide => simp [Symbol.arithmetic] at hsymbol
  | power => exact isFinite_of_applyPower h hlhs hrhs
  | equal | notEqual | greater | greaterEqual | less | lessEqual =>
    obtain rfl := Except.ok.inj h
    exact isFinite_truth _
  | _ => cases h

/-- A division that does not fail is not one by a zero of either sign. -/
theorem ne_zero_of_divide {lhs rhs v : Float} (h : applyBinary lib .divide lhs rhs = .ok v) :
    rhs ≠ 0.0 ∧ rhs ≠ -0.0 := by
  rw [applyBinary] at h
  split at h
  · cases h
  · rename_i hne
    constructor
    · rintro rfl
      exact hne (by decide)
    · rintro rfl
      exact hne (by decide)

/-! ### The first value that is not finite -/

/-- Whether a token has a finite value if it has one of its own: a number is finite, and what a
name is bound to is. -/
def Token.IsTame (env : Environment) : Token → Prop
  | .constant c => c.value.isFinite = true
  | .reference name => ∀ x, env name = some x → x.isFinite = true
  | _ => True

/-- A program whose steps are all finite has a finite value. -/
theorem isFinite_of_valueOf {program : List Token} {v : Float}
    (hsteps : ∀ s ∈ steps lib env program [], s.isWild = false)
    (h : valueOf lib env program = .ok v) : v.isFinite = true := by
  obtain ⟨s, hs, rfl⟩ := (mem_or_exists_of_execute (valueOf_eq_ok_iff.mp h) v
    (List.mem_singleton_self v)).resolve_left List.not_mem_nil
  exact (Step.isWild_eq_false_iff s).mp (hsteps s hs)

/-- An operator on finite values gives a finite value, unless it is one of arithmetic. -/
theorem isFinite_or_isArithmetic_of_applyOperator {op : Operator} {stack left : List Float}
    (hstack : ∀ x ∈ stack, x.isFinite = true) {v : Float}
    (h : applyOperator lib op stack = .ok (v :: left)) :
    v.isFinite = true ∨ (⟨.operator op, stack, v⟩ : Step).IsArithmetic lib := by
  obtain ⟨symbol, arity⟩ := op
  match arity, stack with
  | .unary, [] | .binary, [] | .binary, [_] => cases h
  | .unary, x :: rest =>
    obtain ⟨w, hw, heq⟩ := map_eq_ok_iff.mp h
    cases heq
    exact .inl (isFinite_of_applyUnary hw (hstack x List.mem_cons_self))
  | .binary, rhs :: lhs :: rest =>
    obtain ⟨w, hw, heq⟩ := map_eq_ok_iff.mp h
    cases heq
    have hrhs : rhs.isFinite = true := hstack rhs (by simp)
    have hlhs : lhs.isFinite = true := hstack lhs (by simp)
    by_cases hsymbol : symbol ∈ Symbol.arithmetic
    · refine .inr ⟨symbol, hsymbol, lhs, rhs, _, rfl, rfl, hlhs, hrhs, ?_, hw⟩
      rintro rfl
      exact ne_zero_of_divide hw
    · exact .inl (isFinite_of_applyBinary hw hlhs hrhs hsymbol)

/-- A step on finite values gives a finite value, unless it is one of arithmetic; that of a group
does if all steps inside do. -/
theorem Token.isFinite_or_isArithmetic {t : Token} (ht : t.IsTame env) {stack left : List Float}
    (hstack : ∀ x ∈ stack, x.isFinite = true)
    (hinner : ∀ s ∈ t.innerSteps lib env, s.isWild = false) {v : Float}
    (h : t.execute lib env stack = .ok (v :: left)) :
    v.isFinite = true ∨ (⟨t, stack, v⟩ : Step).IsArithmetic lib := by
  cases t with
  | constant c =>
    rw [Token.execute] at h
    cases h
    exact .inl ht
  | reference name =>
    rw [Token.execute, lookUp] at h
    cases hname : env name with
    | none => rw [hname] at h; cases h
    | some x =>
      rw [hname] at h
      cases h
      exact .inl (ht _ hname)
  | group name provider source tokens program =>
    obtain ⟨w, hw, heq⟩ := Token.exists_valueOf_of_execute_group h
    cases heq
    rw [Token.innerSteps] at hinner
    exact .inl (isFinite_of_valueOf hinner hw)
  | operator op =>
    rw [Token.execute] at h
    exact isFinite_or_isArithmetic_of_applyOperator hstack h

/-- The first wild step of a token and what comes after it is one of arithmetic, if those inside the
token and those after it are. -/
theorem isArithmetic_of_find?_steps_cons {t : Token} (ht : t.IsTame env) {rest : List Token}
    {stack : List Float} (hstack : ∀ x ∈ stack, x.isFinite = true)
    (hinner : ∀ s, (t.innerSteps lib env).find? Step.isWild = some s → s.IsArithmetic lib)
    (hrest : ∀ between, (∀ x ∈ between, x.isFinite = true) → ∀ s,
      (steps lib env rest between).find? Step.isWild = some s → s.IsArithmetic lib)
    {s : Step} (hs : (steps lib env (t :: rest) stack).find? Step.isWild = some s) :
    s.IsArithmetic lib := by
  rw [steps, List.find?_append, List.find?_append] at hs
  cases hfind : (t.innerSteps lib env).find? Step.isWild with
  | some u =>
    rw [hfind, Option.some_or, Option.some_or, Option.some_inj] at hs
    exact hs ▸ hinner u hfind
  | none =>
    rw [hfind, Option.none_or] at hs
    have hcalm : ∀ u ∈ t.innerSteps lib env, u.isWild = false := by
      simpa using List.find?_eq_none.mp hfind
    cases hexecute : t.execute lib env stack with
    | error e =>
      rw [Token.ownStep, hexecute] at hs
      cases hs
    | ok between =>
      obtain ⟨v, left, rfl, hleft, hown⟩ := t.exists_step_of_execute hexecute
      rw [hexecute, hown, List.find?_singleton] at hs
      have hcalm_iff := Step.isWild_eq_false_iff ⟨t, stack, v⟩
      cases hwild : (⟨t, stack, v⟩ : Step).isWild with
      | true =>
        rw [if_pos hwild, Option.some_or, Option.some_inj] at hs
        subst hs
        refine (t.isFinite_or_isArithmetic ht hstack hcalm hexecute).resolve_left fun hv => ?_
        rw [hcalm_iff.mpr hv] at hwild
        cases hwild
      | false =>
        rw [if_neg (Bool.not_eq_true _ ▸ hwild), Option.none_or] at hs
        have hv : v.isFinite = true := hcalm_iff.mp hwild
        exact hrest _ (List.forall_mem_cons.mpr ⟨hv, fun x hx => hstack x (hleft hx)⟩) s hs

mutual

theorem Token.isArithmetic_of_find?_innerSteps (t : Token)
    (hshares : SharesProvider env.provider [t]) (ht : ∀ u, Occurs u [t] → u.IsTame env) {s : Step}
    (hs : (t.innerSteps lib env).find? Step.isWild = some s) : s.IsArithmetic lib := by
  match t with
  | .constant c | .reference name | .operator op => cases hs
  | .group name provider source tokens program =>
    obtain ⟨rfl, -, hprogram⟩ := sharesProvider_group_iff.mp hshares
    rw [Token.innerSteps, Environment.asking_provider] at hs
    exact isArithmetic_of_find?_steps program hprogram
      (fun u hu => ht u (.inside List.mem_cons_self hu)) (by simp) hs

/-- **The first wild value comes of arithmetic.** From finite values on, the first step of an
execution that gives a NaN or an infinity is one of arithmetic on finite operands. -/
theorem isArithmetic_of_find?_steps (program : List Token)
    (hshares : SharesProvider env.provider program)
    (htame : ∀ u, Occurs u program → u.IsTame env) {stack : List Float}
    (hstack : ∀ x ∈ stack, x.isFinite = true) {s : Step}
    (hs : (steps lib env program stack).find? Step.isWild = some s) : s.IsArithmetic lib := by
  match program with
  | [] => cases hs
  | t :: rest =>
    obtain ⟨hsharesFirst, hsharesRest⟩ := sharesProvider_cons_iff.mp hshares
    have hfirst : ∀ u, Occurs u [t] → u.IsTame env := fun u hu => htame u (hu.mono (by simp))
    have hrest : ∀ u, Occurs u rest → u.IsTame env :=
      fun u hu => htame u (hu.mono (List.subset_cons_self _ _))
    exact isArithmetic_of_find?_steps_cons (htame t (.here List.mem_cons_self)) hstack
      (fun _ => t.isArithmetic_of_find?_innerSteps hsharesFirst hfirst)
      (fun _ hbetween _ => isArithmetic_of_find?_steps rest hsharesRest hrest hbetween) hs

end

/-! ### Texts -/

variable {provider : Provider}

/-- A number in a text is decimal, or a whole number that is not too large. -/
theorem Spells.constant_cases {due : Bool} {c : Constant} {text rest : List Char}
    (h : Spells due (.constant c) text rest) :
    (∃ x, c = .decimal x) ∨ ∃ n : Nat, n ≤ largestWhole ∧ c = .whole n := by
  cases h with
  | constant l _ =>
    rw [Literal.constant]
    split
    · rename_i hnone
      rw [Bool.and_eq_true, Option.isNone_iff_eq_none, Option.isNone_iff_eq_none] at hnone
      exact .inr ⟨_, l.fits hnone.1 hnone.2, rfl⟩
    · exact .inl ⟨_, rfl⟩

theorem Lexes.constant_cases {due : Bool} {text : List Char} {lexemes : List Lexeme}
    (h : Lexes due text lexemes) : ∀ c, .constant c ∈ lexemes →
      (∃ x, c = .decimal x) ∨ ∃ n : Nat, n ≤ largestWhole ∧ c = .whole n := by
  induction h with
  | nil due => simp
  | cons hspells _ ih =>
    intro c hc
    rcases List.mem_cons.mp hc with rfl | hc
    · exact hspells.constant_cases
    · exact ih c hc

/-- The whole numbers in a text that parses are not too large. -/
theorem exists_le_largestWhole_of_mem {source : String} {p : Parsed}
    (h : parse provider source = .ok p) {n : Int} (hn : .constant (.whole n) ∈ p.tokens) :
    ∃ m : Nat, m ≤ largestWhole ∧ n = m := by
  obtain ⟨hlexes, htokens⟩ := lexes_of_parse h
  obtain ⟨l, hl, htoken⟩ := exists_lexeme_of_mem htokens hn
  cases l with
  | constant c =>
    cases htoken
    obtain ⟨x, hx⟩ | ⟨m, hm, heq⟩ := hlexes.constant_cases _ hl
    · cases hx
    · exact ⟨m, hm, Constant.whole.inj heq⟩
  | operator op => cases htoken
  | reference name => cases htoken
  | group g =>
    obtain ⟨q, -, hgroup⟩ := map_eq_ok_iff.mp htoken
    cases hgroup

/-- The tokens that are executed are those of the text and of its groups. -/
theorem exists_within_of_occurs {source : String} {p : Parsed} (h : parse provider source = .ok p)
    {t : Token} (ht : Occurs t p.program) : ∃ tokens, Within tokens p.tokens ∧ t ∈ tokens := by
  generalize hprogram : p.program = program at ht
  induction ht generalizing source p with
  | here hmem =>
    subst hprogram
    exact ⟨p.tokens, .self _, (program_perm_tokens h).subset hmem⟩
  | inside hmem _ ih =>
    subst hprogram
    have hwritten := (program_perm_tokens h).subset hmem
    obtain ⟨tokens, hwithin, ht⟩ := ih (parse_of_group_mem h hwritten).2.2 rfl
    exact ⟨tokens, .group hwritten hwithin, ht⟩

/-- What is referred to is a name of the program. -/
theorem mem_references_of_occurs {name : String} {program : List Token}
    (h : Occurs (.reference name) program) : name ∈ references program := by
  have key : ∀ {t program}, t ∈ program → t.references ⊆ references program := by
    intro t program ht
    obtain ⟨before, after, rfl⟩ := List.append_of_mem ht
    intro n hn
    simp [hn]
  induction h with
  | here hmem => exact key hmem (by simp [Token.references])
  | inside hmem _ ih => exact key hmem (by rw [Token.references]; exact ih)

/-- The whole numbers that are executed are finite. -/
theorem isFinite_of_occurs {source : String} {p : Parsed} (h : parse provider source = .ok p)
    {n : Int} (hn : Occurs (.constant (.whole n)) p.program) :
    (Constant.whole n).value.isFinite = true := by
  obtain ⟨tokens, hwithin, hmem⟩ := exists_within_of_occurs h hn
  obtain ⟨inner, program, hinner⟩ := exists_parse_of_within h hwithin
  obtain ⟨m, hm, rfl⟩ := exists_le_largestWhole_of_mem hinner hmem
  have hlt : m < 2 ^ 53 := by
    have hlargest : largestWhole + 1 = 2 ^ 53 := rfl
    omega
  exact isFinite_ofNat hlt

/-- **Infinities come of arithmetic.** Let the decimal numbers in a formula that has been generated
be finite, at any depth, and the values of the names that it refers to. Whatever the mathematical
library returns, the first value in an evaluation that is a NaN or infinite is the result of an
addition, a subtraction, a multiplication or a division of finite numbers, and not of a division by
zero. A formula without any of these operators between operands, at any depth, has a finite value
if it has one. -/
theorem infinities_come_of_arithmetic {f : Formula} (hf : f.IsGenerated) (lib : MathLibrary)
    (bindings : Bindings)
    (hdecimals : ∀ tokens, Within tokens f.tokens →
      ∀ x, .constant (.decimal x) ∈ tokens → x.isFinite = true)
    (hnames : ∀ name ∈ f.references, ∀ x, bindings f.provider name = some x → x.isFinite = true) :
    (∀ s, (steps lib (f.environment bindings) f.program []).find? Step.isWild = some s →
      s.IsArithmetic lib) ∧
    ∀ v, f.value lib bindings = .ok v →
      (steps lib (f.environment bindings) f.program []).getLast?.map Step.value = some v ∧
      ((∀ tokens, Within tokens f.tokens →
        ∀ symbol ∈ Symbol.arithmetic, .operator (.binary symbol) ∉ tokens) →
          v.isFinite = true) := by
  have htame : ∀ t, Occurs t f.program → t.IsTame (f.environment bindings) := by
    intro t ht
    obtain ⟨tokens, hwithin, hmem⟩ := exists_within_of_occurs hf ht
    match t with
    | .constant (.whole n) => exact isFinite_of_occurs hf ht
    | .constant (.decimal x) => exact hdecimals tokens hwithin x hmem
    | .reference name => exact hnames name (mem_references_of_occurs ht)
    | .operator op => trivial
    | .group name provider source written program => trivial
  have hfirst : ∀ s, (steps lib (f.environment bindings) f.program []).find? Step.isWild = some s →
      s.IsArithmetic lib := fun s =>
    isArithmetic_of_find?_steps f.program hf.sharesProvider.program htame (by simp)
  refine ⟨hfirst, fun v hv => ?_⟩
  rw [hf.value_eq] at hv
  refine ⟨getLast?_steps_of_valueOf hv, fun hnone => ?_⟩
  cases hfind : (steps lib (f.environment bindings) f.program []).find? Step.isWild with
  | none =>
    refine isFinite_of_valueOf (fun s hs => ?_) hv
    simpa using List.find?_eq_none.mp hfind s hs
  | some s =>
    obtain ⟨symbol, hsymbol, -, -, -, htoken, -⟩ := hfirst s hfind
    have hoccurs := occurs_of_mem_steps f.program (List.mem_of_find?_eq_some hfind)
    obtain ⟨tokens, hwithin, hmem⟩ := exists_within_of_occurs hf hoccurs
    exact absurd (htoken ▸ hmem) (hnone tokens hwithin symbol hsymbol)

/-- In `sqrt(x*x)` the product in the group is the first infinity where `x` is the largest number,
whatever the root of it is. -/
theorem infinities_come_of_arithmetic_product : ∃ f : Formula, f.IsGenerated ∧
    f.source = "sqrt(x*x)" ∧ ∀ lib,
      let env : Environment := .ofLookup fun _ => some (.ofBits 0x7FEFFFFFFFFFFFFF)
      ∃ s, (steps lib env f.program []).find? Step.isWild = some s ∧ s.IsArithmetic lib := by
  let x : Name := ⟨'x', [], rfl, by simp, by decide⟩
  have hinner : Lexes true (x.text ++ (Symbol.multiply.text.toList ++ (x.text ++ [])))
      [.reference "x", .operator (.binary .multiply), .reference "x"] :=
    .cons (.reference x rfl) (.cons (.binary rfl (by rintro ⟨⟩) (by rintro _ ⟨⟩; rfl))
      (.cons (.reference x rfl) (.nil _)))
  have houter : Lexes true (Symbol.sqrt.text.toList ++ ('(' :: "x*x".toList ++ [')'] ++ []))
      [.operator (.unary .sqrt), .group "x*x"] :=
    .cons (.function rfl rfl) (.cons (.group rfl (by decide)) (.nil _))
  let group : Token := .group "x*x" .sole "x*x"
    [.reference "x", .operator (.binary .multiply), .reference "x"]
    [.reference "x", .reference "x", .operator (.binary .multiply)]
  let f : Formula :=
    ⟨"f", .sole, "sqrt(x*x)", [.operator (.unary .sqrt), group],
      [group, .operator (.unary .sqrt)], none⟩
  have hgroup : parse .sole "x*x" = .ok ⟨_, _⟩ :=
    parse_of_lexes hinner (.cons rfl (.cons rfl (.cons rfl .nil))) rfl
  have hparse : parse .sole "sqrt(x*x)" = .ok ⟨f.tokens, f.program⟩ := parse_of_lexes houter
    (.cons rfl (.cons (Lexeme.token_group hgroup) .nil)) rfl
  have hf : f.IsGenerated := hparse
  refine ⟨f, hf, rfl, fun lib => ?_⟩
  have hdecimals : ∀ tokens, Within tokens f.tokens →
      ∀ c, .constant (.decimal c) ∈ tokens → c.isFinite = true := by
    intro tokens hwithin c hc
    cases hwithin with
    | self => simp [f, group] at hc
    | group hmem hwithin =>
      obtain ⟨-, -, -, rfl, -⟩ := by simpa [f, group] using hmem
      cases hwithin with
      | self => simp at hc
      | group hmem => simp at hmem
  have hnames : ∀ name ∈ f.references, ∀ v,
      some (Float.ofBits 0x7FEFFFFFFFFFFFFF) = some v → v.isFinite = true := by
    rintro name - v ⟨⟩
    decide
  obtain ⟨hfirst, -⟩ := infinities_come_of_arithmetic hf lib (fun _ _ => some _) hdecimals hnames
  have hfound : ((steps lib (.ofLookup fun _ => some (.ofBits 0x7FEFFFFFFFFFFFFF)) f.program
      []).find? Step.isWild).isSome = true := by
    rfl
  obtain ⟨s, hs⟩ := Option.isSome_iff_exists.mp hfound
  exact ⟨s, hs, hfirst s hs⟩

end Formulary
