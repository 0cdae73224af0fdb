import Formulary.Proofs.Generated
import Formulary.Session

/-!
# What formulas keep

A formula keeps the tokens of its text and the value of its last evaluation, and it is asked for
them long after they were found. They are never stale. Whatever has been done in a session, a
formula has either nothing at all, or the tokens that its present text is scanned to, in both
orders; the same goes for the groups in it, at any depth, which ask its provider; and its value is
that of the last evaluation that succeeded, unless it has been generated anew or given another text
since.

What was done to a formula is told by the history of the session. A copy takes part in the history
of the formula that it was made from, up to the moment of its making. The values of names are no
part of this: they may change as they like, and formulas may be made for different providers.

## Main definitions

* `Formula.IsCurrent` — whether what a formula keeps is what its text gives
* `Session.History` — the sessions that there can be, with what has been done in them
* `Session.deeds` — what has been done to a formula

## Main results

* `Session.exists_history_run` — whatever is done in a session, it has a history
* `Session.becomes_of_perform` — what an action does to a formula
* `Session.History.remembers` — a value is that of the last event that settled it
* `Session.History.isCurrent_and_remembers` — nothing that is kept is stale
-/

namespace Formulary

/-! ### Formulas -/

/-- Whether tokens are those of a text, as they were written and as they are executed. -/
structure AreOf (provider : Provider) (source : String) (tokens program : List Token) : Prop where
  scan : scan provider source = .ok tokens
  arrange : arrange tokens = .ok program

theorem areOf_of_parse {provider : Provider} {source : String} {tokens program : List Token}
    (h : parse provider source = .ok ⟨tokens, program⟩) : AreOf provider source tokens program :=
  ⟨(parse_eq_ok_iff.mp h).1, (parse_eq_ok_iff.mp h).2⟩

/-- Whether what a formula keeps is what its text gives: nothing at all, or the tokens of its text.
A group at any depth is named by its text, has the provider of the formula and the tokens of its
text, and has the value that it has as a formula by itself. -/
def Formula.IsCurrent (f : Formula) : Prop :=
  f.tokens = [] ∧ f.program = [] ∧ f.lastValue = none ∨
    AreOf f.provider f.source f.tokens f.program ∧
      ∀ name provider source tokens program, Nested name provider source tokens program f.tokens ∨
          Nested name provider source tokens program f.program →
        name = source ∧ provider = f.provider ∧ AreOf provider source tokens program ∧
          ∀ lib env stack, (Token.group name provider source tokens program).execute lib env stack
            = ((⟨name, provider, source, tokens, program, none⟩ : Formula).value lib
                env.bindings).map (· :: stack)

namespace Formula

/-- A formula that is generated keeps what its text gives. -/
theorem IsGenerated.isCurrent {f : Formula} (h : f.IsGenerated) : f.IsCurrent := by
  refine .inr ⟨areOf_of_parse h, fun name provider source tokens program hnested => ?_⟩
  obtain ⟨hname, rfl, hparse⟩ : name = source ∧ provider = f.provider ∧
      parse f.provider source = .ok ⟨tokens, program⟩ := by
    rcases hnested with hnested | hnested
    · exact hnested.parse_eq h (List.Subset.refl _)
    · exact hnested.parse_eq h (program_perm_tokens h).subset
  refine ⟨hname, rfl, areOf_of_parse hparse, fun lib env stack => ?_⟩
  rw [Token.execute_group (program_ne_nil_of_parse hparse),
    value_of_checkShape (checkShape_of_parse hparse)]
  rfl

theorem Made.isCurrent {f : Formula} (h : f.Made) : f.IsCurrent :=
  h.isGenerated_or_keeps_nothing.elim IsGenerated.isCurrent .inl

/-- A generation that fails leaves the name, the provider and the text. -/
theorem fst_generate_of_error {f : Formula} {e : ParseError} (h : f.generate.2 = .error e) :
    f.generate.1 = ⟨f.name, f.provider, f.source, [], [], none⟩ := by
  rw [generate] at h ⊢
  split at h
  · rfl
  · cases h

/-- An evaluation that fails leaves everything. -/
theorem fst_update_of_error {f : Formula} {lib : MathLibrary} {bindings : Bindings}
    {e : EvalError} (h : (f.update lib bindings).2 = .error e) :
    (f.update lib bindings).1 = f := by
  rw [update] at h ⊢
  split at h
  · rfl
  · cases h

theorem lastValue_generate (f : Formula) : f.generate.1.lastValue = none := by
  rw [generate]
  split <;> rfl

end Formula

namespace Session

variable {lib : MathLibrary} {s : Session}

/-- What is done with a formula that there is. -/
theorem alter_of_getElem? {i : Nat} {f : Formula} (hf : s.formulas[i]? = some f)
    (change : Formula → Formula × Reply) :
    s.alter i change = (⟨s.tables, s.formulas.set i (change f).1⟩, (change f).2) := by
  rw [alter, hf]

/-! ### Histories -/

/-- An action and what came of it. -/
abbrev Event := Action × Reply

/-- The sessions that there can be, each with what has been done in it, the latest first. -/
inductive History (lib : MathLibrary) : List Event → Session → Prop where
  | start (tables : Provider → Table) : History lib [] (ofTables tables)
  | next {past : List Event} {s : Session} (h : History lib past s) (a : Action) :
      History lib ((a, (s.perform lib a).2) :: past) (s.perform lib a).1
  /-- What providers answer may also change of itself. -/
  | switch {past : List Event} {s : Session} (h : History lib past s)
      (tables : Provider → Table) : History lib past { s with tables := tables }

theorem History.step {past : List Event} {s' : Session} {a : Action} {r : Reply}
    (h : History lib past s) (ha : s.perform lib a = (s', r)) :
    History lib ((a, r) :: past) s' := by
  have hs := h.next a
  rwa [ha] at hs

/-- Every session that is reached by performing actions has a history. -/
theorem exists_history_run {past : List Event} (h : History lib past s) (actions : List Action) :
    ∃ past', History lib past' (s.run lib actions) := by
  induction actions generalizing past s with
  | nil => exact ⟨past, h⟩
  | cons a rest ih => exact ih (h.next a)

/-- The formula that an action does something with. -/
def Action.subject? : Action → Option Nat
  | .setText i _ | .generate i | .value i | .update i => some i
  | _ => none

/-- The number of the formula that has been made. -/
def Reply.made? : Reply → Option Nat
  | .made k => some k
  | _ => none

/-- The formula that an action makes a copy of. -/
def Action.original? : Action → Option Nat
  | .copy j => some j
  | _ => none

/-- What has been done to formula `i`, the latest first. What had been done to a formula when it was
copied has been done to the copy. -/
def deeds : List Event → Nat → List Event
  | [], _ => []
  | (a, r) :: past, i =>
    if r.made? = some i then a.original?.elim [] (deeds past)
    else if a.subject? = some i then (a, r) :: deeds past i
    else deeds past i

/-- Whether an event settles what value a formula keeps: it is given a text, it is generated, or it
is evaluated with success for the value to be kept. -/
def settles : Event → Bool
  | (.setText _ _, _) | (.generate _, _) | (.update _, .evaluated (.ok _)) => true
  | _ => false

/-! ### One action -/

/-- What formula `k` can become by an action: it stays as it is, it is made, or something is done
with it. -/
inductive Becomes (lib : MathLibrary) (s : Session) (k : Nat) : Event → Formula → Prop where
  | kept {a : Action} {r : Reply} {f : Formula} (hf : s.formulas[k]? = some f)
      (hsubject : a.subject? ≠ some k) (hmade : r.made? ≠ some k) : Becomes lib s k (a, r) f
  | new (name : String) (provider : Provider) :
      Becomes lib s k (.new name provider, .made k) (.ofName name provider)
  | newText (name : String) (provider : Provider) (source : String) :
      Becomes lib s k (.newText name provider source, .made k) (.ofText name provider source)
  | copy {j : Nat} {f : Formula} (hf : s.formulas[j]? = some f) :
      Becomes lib s k (.copy j, .made k) f
  | setText {f : Formula} (hf : s.formulas[k]? = some f) (source : String) :
      Becomes lib s k (.setText k source, .done) (f.setText source)
  | generate {f : Formula} (hf : s.formulas[k]? = some f) :
      Becomes lib s k (.generate k, .parsed f.generate.2) f.generate.1
  | value {f : Formula} (hf : s.formulas[k]? = some f) :
      Becomes lib s k (.value k, .evaluated (f.value lib s.bindings)) f
  | update {f : Formula} (hf : s.formulas[k]? = some f) :
      Becomes lib s k (.update k, .evaluated (f.update lib s.bindings).2)
        (f.update lib s.bindings).1

/-- A formula that is added has the next number, and the others stay as they are. -/
theorem becomes_of_add {a : Action} {k : Nat} {f f' : Formula} (ha : a.subject? = none)
    (hadded : s.Becomes lib s.formulas.length (a, .made s.formulas.length) f')
    (h : (s.add f').1.formulas[k]? = some f) :
    s.Becomes lib k (a, .made s.formulas.length) f := by
  have hlt := (List.getElem?_eq_some_iff.mp h).1
  rw [add, List.length_append, List.length_singleton] at hlt
  rw [add] at h
  rcases Nat.lt_succ_iff_lt_or_eq.mp hlt with hlt | rfl
  · rw [List.getElem?_append_left hlt] at h
    refine .kept h (by rw [ha]; rintro ⟨⟩) ?_
    rintro ⟨⟩
    exact Nat.lt_irrefl _ hlt
  · rw [List.getElem?_concat_length] at h
    obtain rfl := Option.some.inj h
    exact hadded

/-- What is done with a formula changes it alone. -/
theorem becomes_of_alter {a : Action} {i k : Nat} {f : Formula}
    {change : Formula → Formula × Reply} (ha : a.subject? = some i)
    (hreply : ∀ f, (change f).2.made? = none)
    (hchanged : ∀ f, s.formulas[i]? = some f → s.Becomes lib i (a, (change f).2) (change f).1)
    (h : (s.alter i change).1.formulas[k]? = some f) :
    s.Becomes lib k (a, (s.alter i change).2) f := by
  cases hf : s.formulas[i]? with
  | none =>
    rw [alter, hf] at h ⊢
    refine .kept h ?_ (by rintro ⟨⟩)
    rw [ha]
    rintro ⟨⟩
    rw [hf] at h
    cases h
  | some f' =>
    rw [alter_of_getElem? hf] at h ⊢
    by_cases hk : k = i
    · subst hk
      rw [List.getElem?_set_self (List.getElem?_eq_some_iff.mp hf).1] at h
      obtain rfl := Option.some.inj h
      exact hchanged f' hf
    · rw [List.getElem?_set_ne (Ne.symm hk)] at h
      refine .kept h ?_ (by rw [hreply]; rintro ⟨⟩)
      rw [ha]
      rintro ⟨⟩
      exact hk rfl

/-- **What an action does to a formula.** -/
theorem becomes_of_perform {a : Action} {k : Nat} {f : Formula}
    (h : (s.perform lib a).1.formulas[k]? = some f) :
    s.Becomes lib k (a, (s.perform lib a).2) f := by
  cases a with
  | bind provider name v => exact .kept h (by rintro ⟨⟩) (by rintro ⟨⟩)
  | unbind provider name => exact .kept h (by rintro ⟨⟩) (by rintro ⟨⟩)
  | new name provider => exact becomes_of_add rfl (.new name provider) h
  | newText name provider source => exact becomes_of_add rfl (.newText name provider source) h
  | copy j =>
    rw [perform] at h ⊢
    cases hj : s.formulas[j]? with
    | none =>
      rw [hj] at h
      exact .kept h (by rintro ⟨⟩) (by rintro ⟨⟩)
    | some f' =>
      rw [hj] at h
      exact becomes_of_add rfl (.copy hj) h
  | setText i source =>
    exact becomes_of_alter rfl (fun _ => rfl) (fun f hf => .setText hf source) h
  | generate i => exact becomes_of_alter rfl (fun _ => rfl) (fun f hf => .generate hf) h
  | value i => exact becomes_of_alter rfl (fun _ => rfl) (fun f hf => .value hf) h
  | update i => exact becomes_of_alter rfl (fun _ => rfl) (fun f hf => .update hf) h

/-! ### All actions -/

/-- What an action makes of formulas that there can be is one of them. -/
theorem Becomes.made {k : Nat} {e : Event} {f : Formula} (h : s.Becomes lib k e f)
    (hs : ∀ (i : Nat) (f : Formula), s.formulas[i]? = some f → f.Made) : f.Made := by
  cases h with
  | kept hf _ _ => exact hs _ _ hf
  | new name provider => exact .ofText name provider ""
  | newText name provider source => exact .ofText name provider source
  | copy hf => exact hs _ _ hf
  | setText hf source => exact (hs _ _ hf).setText source
  | generate hf => exact (hs _ _ hf).generate
  | value hf => exact hs _ _ hf
  | update hf => exact (hs _ _ hf).update lib _

/-- The formulas of a session are some that there can be. -/
theorem History.made {past : List Event} (h : History lib past s) :
    ∀ (k : Nat) (f : Formula), s.formulas[k]? = some f → f.Made := by
  induction h with
  | start tables => rintro _ _ ⟨⟩
  | next _ a ih => exact fun k f hf => (becomes_of_perform hf).made ih
  | switch _ tables ih => exact ih

/-- Whether the value that a formula keeps is that of the last event that settled it. -/
def Remembers (past : List Event) (i : Nat) (f : Formula) : Prop :=
  ∀ v, f.lastValue = some v ↔
    ∃ j, (deeds past i).find? settles = some (.update j, .evaluated (.ok v))

/-- What has been done to a formula that is made. -/
theorem deeds_cons_of_made (a : Action) (k : Nat) (past : List Event) :
    deeds ((a, .made k) :: past) k = a.original?.elim [] (deeds past) :=
  if_pos rfl

/-- What has been done to a formula that an action does something with. -/
theorem deeds_cons_of_subject? {a : Action} {r : Reply} {k : Nat} (ha : a.subject? = some k)
    (hr : r.made? ≠ some k) (past : List Event) :
    deeds ((a, r) :: past) k = (a, r) :: deeds past k := by
  rw [deeds, if_neg hr, if_pos ha]

theorem remembers_nothing {past : List Event} {i : Nat} {f : Formula} (hvalue : f.lastValue = none)
    (h : ∀ j v, (deeds past i).find? settles ≠ some (.update j, .evaluated (.ok v))) :
    Remembers past i f := by
  intro v
  rw [hvalue]
  constructor
  · rintro ⟨⟩
  · rintro ⟨j, hj⟩
    exact absurd hj (h j v)

/-- What an action makes of formulas that remember remembers. -/
theorem Becomes.remembers {past : List Event} {k : Nat} {e : Event} {f : Formula}
    (h : s.Becomes lib k e f)
    (hs : ∀ (i : Nat) (f : Formula), s.formulas[i]? = some f → Remembers past i f) :
    Remembers (e :: past) k f := by
  cases h with
  | kept hf hsubject hmade =>
    intro v
    rw [deeds, if_neg hmade, if_neg hsubject]
    exact hs _ _ hf v
  | new name provider =>
    refine remembers_nothing rfl fun j v => ?_
    rw [deeds_cons_of_made]
    rintro ⟨⟩
  | newText name provider source =>
    refine remembers_nothing rfl fun j v => ?_
    rw [deeds_cons_of_made]
    rintro ⟨⟩
  | copy hf =>
    intro v
    rw [deeds_cons_of_made]
    exact hs _ _ hf v
  | setText hf source =>
    refine remembers_nothing rfl fun j v => ?_
    rw [deeds_cons_of_subject? rfl (by rintro ⟨⟩), List.find?_cons_of_pos rfl]
    rintro ⟨⟩
  | @generate f hf =>
    refine remembers_nothing f.lastValue_generate fun j v => ?_
    rw [deeds_cons_of_subject? rfl (by rintro ⟨⟩), List.find?_cons_of_pos rfl]
    rintro ⟨⟩
  | value hf =>
    intro v
    rw [deeds_cons_of_subject? rfl (by rintro ⟨⟩), List.find?_cons_of_neg (by rintro ⟨⟩)]
    exact hs _ _ hf v
  | @update f hf =>
    intro v
    rw [deeds_cons_of_subject? rfl (by rintro ⟨⟩), Formula.update]
    cases f.value lib s.bindings with
    | error e =>
      rw [List.find?_cons_of_neg (by rintro ⟨⟩)]
      exact hs _ _ hf v
    | ok w =>
      rw [List.find?_cons_of_pos rfl]
      constructor
      · rintro ⟨⟩
        exact ⟨k, rfl⟩
      · rintro ⟨_, ⟨⟩⟩
        rfl

/-- The formulas of a session remember. -/
theorem History.remembers {past : List Event} (h : History lib past s) :
    ∀ (k : Nat) (f : Formula), s.formulas[k]? = some f → Remembers past k f := by
  induction h with
  | start tables => rintro _ _ ⟨⟩
  | next _ a ih => exact fun k f hf => (becomes_of_perform hf).remembers ih
  | switch _ tables ih => exact ih

/-! ### Failures -/

/-- A generation that fails leaves the name, the provider and the text of its formula, and
everything else. -/
theorem perform_generate_of_error {i : Nat} {e : ParseError}
    (h : (s.perform lib (.generate i)).2 = .parsed (.error e)) :
    ∃ f, s.formulas[i]? = some f ∧ (s.perform lib (.generate i)).1
      = ⟨s.tables, s.formulas.set i ⟨f.name, f.provider, f.source, [], [], none⟩⟩ := by
  cases hf : s.formulas[i]? with
  | none =>
    rw [perform, alter, hf] at h
    cases h
  | some f =>
    rw [perform, alter_of_getElem? hf] at h ⊢
    have hfails : f.generate.2 = .error e := by injection h
    exact ⟨f, rfl, by rw [Formula.fst_generate_of_error hfails]⟩

/-- An evaluation that fails leaves everything. -/
theorem perform_update_of_error {i : Nat} {e : EvalError}
    (h : (s.perform lib (.update i)).2 = .evaluated (.error e)) :
    (s.perform lib (.update i)).1 = s := by
  cases hf : s.formulas[i]? with
  | none => rw [perform, alter, hf]
  | some f =>
    rw [perform, alter_of_getElem? hf] at h ⊢
    have hfails : (f.update lib s.bindings).2 = .error e := by injection h
    obtain ⟨hi, rfl⟩ := List.getElem?_eq_some_iff.mp hf
    rw [Formula.fst_update_of_error hfails, List.set_getElem_self]

/-- **Nothing that a formula keeps is stale.** In every session that there can be, a formula keeps
nothing or the tokens of its text, and so do its groups, which ask its provider; its value is that
of the last event that settled it; a generation that fails leaves the name, the provider and the
text only, and an evaluation that fails changes nothing. -/
theorem History.isCurrent_and_remembers {past : List Event} (h : History lib past s) :
    (∀ (i : Nat) (f : Formula), s.formulas[i]? = some f → f.IsCurrent ∧ Remembers past i f) ∧
    (∀ (i : Nat) (e : ParseError), (s.perform lib (.generate i)).2 = .parsed (.error e) →
      ∃ f, s.formulas[i]? = some f ∧ (s.perform lib (.generate i)).1
        = ⟨s.tables, s.formulas.set i ⟨f.name, f.provider, f.source, [], [], none⟩⟩) ∧
    (∀ (i : Nat) (e : EvalError), (s.perform lib (.update i)).2 = .evaluated (.error e) →
      (s.perform lib (.update i)).1 = s) :=
  ⟨fun i f hf => ⟨(h.made i f hf).isCurrent, h.remembers i f hf⟩,
    fun _ _ => perform_generate_of_error, fun _ _ => perform_update_of_error⟩

/-- A copy of `x` keeps the value 2 that it had by then, while the text that it was copied from is
emptied and can neither be parsed nor evaluated. -/
theorem History.isCurrent_and_remembers_copy :
    ∃ past s f e e', History .system past s ∧ s.formulas = [.ofText "f" .sole "", f] ∧
      f.IsCurrent ∧ f.lastValue = some 2.0 ∧
      (s.perform .system (.generate 0)).2 = .parsed (.error e) ∧
      (s.perform .system (.generate 0)).1 = s ∧
      (s.perform .system (.update 0)).2 = .evaluated (.error e') ∧
      (s.perform .system (.update 0)).1 = s := by
  have hx : parse .sole "x" = .ok ⟨[.reference "x"], [.reference "x"]⟩ :=
    parse_name (show Text.visible "x" = ['x'] by decide) rfl (by simp) (by decide)
  have hnothing : parse .sole "" = .error .emptyText := by
    have hlexemes : lexemesOf "" = ⟨[], none⟩ :=
      lexemesOf_eq_iff_lexes.mpr (show Lexes true (Text.visible "") [] from .nil true)
    have hscan : scan .sole "" = .ok [] := scan_eq_ok_iff.mpr (by rw [hlexemes]; exact ⟨rfl, .nil⟩)
    rw [parse_eq, hscan]
    rfl
  let f : Formula := ⟨"f", .sole, "x", [.reference "x"], [.reference "x"], none⟩
  let f' : Formula := { f with lastValue := some 2.0 }
  let t : Provider → Table := fun other =>
    if other = .sole then Table.empty.insert "x" 2.0 else .empty
  have hgenerate : (Formula.ofText "f" .sole "x").generate = (f, .ok ()) :=
    Formula.generate_of_parse (f := .ofText "f" .sole "x") hx
  have hupdate : f.update .system (Session.bindings ⟨t, [f]⟩) = (f', .ok 2.0) := by
    have hlookup : f.environment (Session.bindings ⟨t, [f]⟩) "x" = some 2.0 :=
      Table.get?_insert _ _ _ _
    have hvalue : f.value .system (Session.bindings ⟨t, [f]⟩) = .ok 2.0 := by
      rw [Formula.value, Formula.whenGenerated, if_neg (by simp [f]), valueOf, execute_cons,
        Token.execute, lookUp, hlookup]
      rfl
    rw [Formula.update, hvalue]
  have hmade : History .system [(.newText "f" .sole "x", .made 0)]
      ⟨fun _ => .empty, [.ofText "f" .sole "x"]⟩ :=
    (History.start fun _ => .empty).step rfl
  have hgenerated : History .system _ ⟨fun _ => .empty, [f]⟩ :=
    hmade.step (a := .generate 0) (r := .parsed (.ok ()))
      (by rw [perform, alter_of_getElem? rfl, hgenerate]; rfl)
  have hbound : History .system _ ⟨t, [f]⟩ :=
    hgenerated.step (a := .bind .sole "x" 2.0) (r := .previous none) rfl
  have hupdated : History .system _ ⟨t, [f']⟩ :=
    hbound.step (a := .update 0) (r := .evaluated (.ok 2.0))
      (by rw [perform, alter_of_getElem? rfl, hupdate]; rfl)
  have hcopied : History .system _ ⟨t, [f', f']⟩ :=
    hupdated.step (a := .copy 0) (r := .made 1) rfl
  have hemptied : History .system _ ⟨t, [.ofText "f" .sole "", f']⟩ :=
    hcopied.step (a := .setText 0 "") (r := .done) rfl
  obtain ⟨hkept, hgenerates, hupdates⟩ := hemptied.isCurrent_and_remembers
  have hfails : (Session.perform .system ⟨t, [.ofText "f" .sole "", f']⟩ (.generate 0)).2
      = .parsed (.error .emptyText) := by
    rw [perform, alter_of_getElem? rfl, Formula.generate, Formula.ofText, hnothing]
  obtain ⟨_, hf, hgenerated⟩ := hgenerates 0 _ hfails
  obtain rfl := Option.some.inj hf
  exact ⟨_, _, f', .emptyText, .notGenerated "f", hemptied, rfl, (hkept 1 f' rfl).1,
    ((hkept 1 f' rfl).2 2.0).mpr ⟨0, rfl⟩, hfails, hgenerated, rfl, hupdates 0 _ rfl⟩

end Session

end Formulary
