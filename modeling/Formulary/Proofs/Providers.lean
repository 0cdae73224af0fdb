import Formulary.Token

/-!
# Who is asked

A group asks its own provider, whoever asks for the value of the tokens around it. A formula lists
the names in its groups with its own, as if they were all asked of one provider. The two agree where
the groups at every depth have the provider of the formula. This is what has to be known of tokens
before anything can be said about their names.

## Main definitions

* `Nested` — the groups at any depth of a list of tokens, in both of its orders
* `SharesProvider` — whether all groups of a list of tokens, at any depth, have a given provider

## Main results

* `sharesProvider_cons_iff`, `sharesProvider_group_iff` — the condition follows the tokens
-/

namespace Formulary

/-- Whether a list of tokens has a group in it, itself or in the tokens of another group, in the
order they were written or in the order they are executed. -/
inductive Nested (name : String) (provider : Provider) (source : String)
    (tokens program : List Token) : List Token → Prop where
  /-- A group of the list itself. -/
  | here {outer : List Token} (hmem : .group name provider source tokens program ∈ outer) :
      Nested name provider source tokens program outer
  /-- A group among the written tokens of a group. -/
  | written {outer : List Token} {name' : String} {provider' : Provider} {source' : String}
      {tokens' program' : List Token}
      (hmem : .group name' provider' source' tokens' program' ∈ outer)
      (h : Nested name provider source tokens program tokens') :
      Nested name provider source tokens program outer
  /-- A group among the executed tokens of a group. -/
  | executed {outer : List Token} {name' : String} {provider' : Provider} {source' : String}
      {tokens' program' : List Token}
      (hmem : .group name' provider' source' tokens' program' ∈ outer)
      (h : Nested name provider source tokens program program') :
      Nested name provider source tokens program outer

/-- Groups stay in a list that is made longer. -/
theorem Nested.mono {name source : String} {provider : Provider} {tokens program outer : List Token}
    (h : Nested name provider source tokens program outer) {outer' : List Token}
    (hsubset : outer ⊆ outer') : Nested name provider source tokens program outer' := by
  cases h with
  | here hmem => exact .here (hsubset hmem)
  | written hmem h => exact .written (hsubset hmem) h
  | executed hmem h => exact .executed (hsubset hmem) h

/-- Whether the groups in a list of tokens, at any depth, all have a given provider. -/
def SharesProvider (provider : Provider) (tokens : List Token) : Prop :=
  ∀ ⦃name provider' source written program⦄,
    Nested name provider' source written program tokens → provider' = provider

section

variable {provider : Provider}

theorem SharesProvider.mono {tokens tokens' : List Token} (h : SharesProvider provider tokens')
    (hsubset : tokens ⊆ tokens') : SharesProvider provider tokens :=
  fun _ _ _ _ _ hnested => h (hnested.mono hsubset)

theorem sharesProvider_nil : SharesProvider provider [] := by
  intro name provider' source written program hnested
  cases hnested with
  | here hmem => cases hmem
  | written hmem _ => cases hmem
  | executed hmem _ => cases hmem

/-- A list shares a provider when its tokens do. -/
theorem sharesProvider_cons_iff {t : Token} {rest : List Token} :
    SharesProvider provider (t :: rest) ↔
      SharesProvider provider [t] ∧ SharesProvider provider rest := by
  refine ⟨fun h => ⟨h.mono (by simp), h.mono (List.subset_cons_self t rest)⟩, ?_⟩
  rintro ⟨ht, hrest⟩ name provider' source written program hnested
  -- The group is, or lies in, the first token or one of the others.
  have split : ∀ u : Token, u ∈ t :: rest → u ∈ [t] ∨ u ∈ rest := by simp
  cases hnested with
  | here hmem => exact (split _ hmem).elim (fun h => ht (.here h)) fun h => hrest (.here h)
  | written hmem hin =>
    exact (split _ hmem).elim (fun h => ht (.written h hin)) fun h => hrest (.written h hin)
  | executed hmem hin =>
    exact (split _ hmem).elim (fun h => ht (.executed h hin)) fun h => hrest (.executed h hin)

/-- A group shares a provider when it has it and its tokens share it, in both orders. -/
theorem sharesProvider_group_iff {name source : String} {provider' : Provider}
    {tokens program : List Token} :
    SharesProvider provider [.group name provider' source tokens program] ↔
      provider' = provider ∧ SharesProvider provider tokens ∧ SharesProvider provider program := by
  constructor
  · intro h
    exact ⟨h (.here List.mem_cons_self),
      fun _ _ _ _ _ hin => h (.written List.mem_cons_self hin),
      fun _ _ _ _ _ hin => h (.executed List.mem_cons_self hin)⟩
  · rintro ⟨rfl, htokens, hprogram⟩ name provider source written program' hnested
    cases hnested with
    | here hmem =>
      cases List.mem_singleton.mp hmem
      rfl
    | written hmem hin =>
      cases List.mem_singleton.mp hmem
      exact htokens hin
    | executed hmem hin =>
      cases List.mem_singleton.mp hmem
      exact hprogram hin

end

end Formulary
