import Formulary.CommandLine.Run
import Formulary.Proofs.Generated
import Formulary.Proofs.Ordering

/-!
# What the formulas of a run mean

The formulas of a run can refer to each other by the names that they are given. What they mean is
told without any order: each has the value that it has where the names of those with a value stand
for these values, and all other names for what they are defined as. This is no definition, since
the results are told by the results. Where no formula refers to itself, through others or not, there
is one way, and only one, to give results that fit.

## Main definitions

* `nameAt` — the name of the formula at a place
* `parsedAt?` — what the text at a place parses to
* `Refers` — whether one formula refers to another one
* `environmentOf` — what names stand for, given results
* `IsMeaning` — whether results fit

## Main results

* `existsUnique_isMeaning` — without circles there is one meaning
-/

namespace Formulary

namespace CommandLine

open Relation

/-! ### Names and references -/

/-- The name of the formula at a place among the texts. -/
def nameAt (i : Nat) : String := "expr" ++ toString (i + 1)

/-- What the text at a place parses to, if it is a formula. -/
def parsedAt? (texts : List String) (i : Nat) : Option Parsed :=
  texts[i]?.bind fun text => (parse .sole text).toOption

/-- Whether the formula at one place refers to the name that belongs to another place. -/
def Mentions (texts : List String) (i j : Nat) : Prop :=
  j < texts.length ∧ ∃ p, parsedAt? texts i = some p ∧ nameAt j ∈ references p.program

/-- Whether the formula at one place refers to the formula at another one. -/
def Refers (texts : List String) (i j : Nat) : Prop :=
  Mentions texts i j ∧ (parsedAt? texts j).isSome

variable {texts : List String}

theorem nameAt_injective : Function.Injective nameAt := by
  intro i j h
  have hdigits : Nat.toDigits 10 (i + 1) = Nat.toDigits 10 (j + 1) := by
    have := congrArg String.toList h
    simpa [nameAt] using this
  have hvalue := congrArg (Nat.ofDigitChars 10 · 0) hdigits
  simpa using hvalue

theorem parsedAt?_eq_some_iff {i : Nat} {p : Parsed} :
    parsedAt? texts i = some p ↔ ∃ text, texts[i]? = some text ∧ parse .sole text = .ok p := by
  rw [parsedAt?, Option.bind_eq_some_iff]
  refine exists_congr fun text => and_congr_right fun _ => ?_
  cases parse .sole text <;> simp [Except.toOption]

theorem lt_length_of_parsedAt? {i : Nat} {p : Parsed} (h : parsedAt? texts i = some p) :
    i < texts.length := by
  obtain ⟨text, htext, -⟩ := parsedAt?_eq_some_iff.mp h
  exact (List.getElem?_eq_some_iff.mp htext).1

theorem parsedAt?_eq_toOption {i : Nat} (hi : i < texts.length) :
    parsedAt? texts i = (parse .sole (texts.getD i "")).toOption := by
  rw [parsedAt?, List.getD_eq_getElem?_getD, List.getElem?_eq_getElem hi]
  rfl

theorem parse_getD_of_parsedAt? {i : Nat} {p : Parsed} (h : parsedAt? texts i = some p) :
    parse .sole (texts.getD i "") = .ok p := by
  obtain ⟨text, htext, hparse⟩ := parsedAt?_eq_some_iff.mp h
  rwa [List.getD_eq_getElem?_getD, htext, Option.getD_some]

/-- What parses is a program of the right shape. -/
theorem checkShape_of_parsedAt? {i : Nat} {p : Parsed} (h : parsedAt? texts i = some p) :
    checkShape p.program = .ok () := by
  obtain ⟨text, -, hparse⟩ := parsedAt?_eq_some_iff.mp h
  exact checkShape_of_parse hparse

theorem sharesProvider_of_parsedAt? {i : Nat} {p : Parsed} (h : parsedAt? texts i = some p) :
    SharesProvider .sole p.program := by
  obtain ⟨text, -, hparse⟩ := parsedAt?_eq_some_iff.mp h
  exact sharesProvider_program hparse

/-- Names that belong to no formula lead nowhere, so chains of them are chains of formulas. -/
theorem transGen_refers_of_mentions {i j : Nat} (h : TransGen (Mentions texts) i j)
    (hj : (parsedAt? texts j).isSome) : TransGen (Refers texts) i j := by
  induction h with
  | single hij => exact .single ⟨hij, hj⟩
  | tail _ hbc ih =>
    obtain ⟨-, p, hp, -⟩ := id hbc
    exact (ih (by rw [hp]; rfl)).tail ⟨hbc, hj⟩

/-- Without circles of formulas there is no infinite chain of names. -/
theorem wellFounded_mentions (h : ∀ i, ¬ TransGen (Refers texts) i i) :
    WellFounded fun j i => Mentions texts i j := by
  refine wellFounded_of_acyclic (fun hij => hij.1) fun i hi => ?_
  obtain ⟨_, ⟨-, p, hp, -⟩, -⟩ := TransGen.head'_iff.mp hi
  exact h i (transGen_refers_of_mentions hi (by rw [hp]; rfl))

/-! ### Results -/

/-- What becomes of the formulas of a run: nothing of a text that is none. -/
abbrev Results := Nat → Option (Except EvalError Float)

/-- The value at a place, if there is one. -/
def Results.value? (results : Results) (i : Nat) : Option Float :=
  (results i).bind Except.toOption

/-- What names stand for: the name of a formula with a value for this value, and every other name
for what it is defined as last. -/
def environmentOf (defines : List (String × Float)) (count : Nat) (results : Results) :
    Environment :=
  .ofLookup fun name =>
    (((List.range count).find? fun i => nameAt i = name).bind results.value?).or
      (defines.reverse.lookup name)

/-- Whether results fit: each formula has the value that it has where names stand for what the
results say. -/
def IsMeaning (lib : MathLibrary) (defines : List (String × Float)) (texts : List String)
    (results : Results) : Prop :=
  ∀ i, results i = (parsedAt? texts i).map fun p =>
    valueOf lib (environmentOf defines texts.length results) p.program

section Meaning

variable {lib : MathLibrary} {defines : List (String × Float)} {results : Results} {i : Nat}
  {result : Except EvalError Float}

/-- Only formulas have results. -/
theorem IsMeaning.exists_parsedAt? (h : IsMeaning lib defines texts results)
    (hi : results i = some result) : ∃ p, parsedAt? texts i = some p := by
  rw [h i, Option.map_eq_some_iff] at hi
  obtain ⟨p, hp, -⟩ := hi
  exact ⟨p, hp⟩

theorem IsMeaning.lt_length (h : IsMeaning lib defines texts results)
    (hi : results i = some result) : i < texts.length := by
  obtain ⟨p, hp⟩ := h.exists_parsedAt? hi
  exact lt_length_of_parsedAt? hp

end Meaning

variable {defines : List (String × Float)} {count : Nat} {results results' : Results}

theorem environmentOf_nameAt {i : Nat} (hi : i < count) :
    environmentOf defines count results (nameAt i)
      = (results.value? i).or (defines.reverse.lookup (nameAt i)) := by
  have hfind : (List.range count).find? (fun j => nameAt j = nameAt i) = some i := by
    simp only [nameAt_injective.eq_iff, List.find?_range_eq_some, decide_eq_true_eq,
      List.mem_range, Bool.not_eq_true', decide_eq_false_iff_not]
    exact ⟨trivial, hi, fun j hj => hj.ne⟩
  rw [environmentOf, Environment.get?_ofLookup, hfind, Option.bind_some]

/-- A name that belongs to no formula with a value stands for what it is defined as. -/
theorem environmentOf_of_value?_eq_none {name : String}
    (h : ∀ i < count, nameAt i = name → results.value? i = none) :
    environmentOf defines count results name = defines.reverse.lookup name := by
  by_cases hname : ∃ i < count, nameAt i = name
  · obtain ⟨i, hi, rfl⟩ := hname
    rw [environmentOf_nameAt hi, h i hi rfl, Option.none_or]
  · have hfind : (List.range count).find? (fun j => nameAt j = name) = none := by
      simpa using hname
    rw [environmentOf, Environment.get?_ofLookup, hfind, Option.bind_none, Option.none_or]

/-- Names stand for the same if the results of the formulas that have them are the same. -/
theorem environmentOf_congr {name : String}
    (h : ∀ i < count, nameAt i = name → results.value? i = results'.value? i) :
    environmentOf defines count results name = environmentOf defines count results' name := by
  by_cases hname : ∃ i < count, nameAt i = name
  · obtain ⟨i, hi, rfl⟩ := hname
    rw [environmentOf_nameAt hi, environmentOf_nameAt hi, h i hi rfl]
  · have hnone : ∀ (results : Results) (i : Nat), i < count → nameAt i = name →
        results.value? i = none := fun _ i hi heq => absurd ⟨i, hi, heq⟩ hname
    rw [environmentOf_of_value?_eq_none (hnone results),
      environmentOf_of_value?_eq_none (hnone results')]

/-- **One meaning.** Where no formula refers to itself, through others or not, there is one way to
give results that fit. -/
theorem existsUnique_isMeaning (lib : MathLibrary) (defines : List (String × Float))
    (h : ∀ i, ¬ TransGen (Refers texts) i i) : ∃! results, IsMeaning lib defines texts results := by
  refine existsUnique_eq_of_local (wellFounded_mentions h) fun f g i hfg => ?_
  cases hp : parsedAt? texts i with
  | none => rfl
  | some p =>
    refine congrArg some (valueOf_congr (sharesProvider_of_parsedAt? hp) rfl
      fun name hname => environmentOf_congr ?_)
    rintro j hj rfl
    rw [Results.value?, Results.value?, hfg j ⟨hj, p, hp, hname⟩]

end CommandLine

end Formulary
