import Formulary.CommandLine.Arguments
import Mathlib.Tactic.SplitIfs

/-!
# Flags in front of arguments

The flags for the log are noted when they are read, and looked at only to refuse a second one. So a
command line without them is read in the same way when they have been read before it, and the
options are the same but for the flags.

## Main definitions

* `Reader.raised`, `Reader.IsQuiet` — what has been read so far, with flags and without them
* `Ignores` — steps of reading that do the same after flags
* `flagArguments` — flags as arguments

## Main results

* `parseArguments_flags` — flags can be put before arguments
-/

namespace Formulary

namespace CommandLine

/-- What has been read so far, with flags for the log instead of those that have been read. -/
def Reader.raised (showTokens verbose : Bool) (r : Reader) : Reader :=
  { r with options := { r.options with showTokens := showTokens, verbose := verbose } }

/-- Whether no flag for the log has been read. -/
def Reader.IsQuiet (r : Reader) : Prop :=
  r.options.showTokens = false ∧ r.options.verbose = false

/-- Whether a step of reading that leaves no flag read does the same after flags. -/
def Ignores (showTokens verbose : Bool) (step : Reader → Except Stop Reader) : Prop :=
  ∀ r r' : Reader, step r = .ok r' → r'.IsQuiet →
    r.IsQuiet ∧ step (r.raised showTokens verbose) = .ok (r'.raised showTokens verbose)

variable {showTokens verbose : Bool}

theorem Ignores.bind {f g : Reader → Except Stop Reader} (hf : Ignores showTokens verbose f)
    (hg : Ignores showTokens verbose g) : Ignores showTokens verbose fun r => f r >>= g := by
  intro r r' h hquiet
  dsimp only at h ⊢
  cases hfirst : f r with
  | error e =>
    rw [hfirst] at h
    cases h
  | ok between =>
    rw [hfirst] at h
    obtain ⟨hbetween, hsecond⟩ := hg between r' h hquiet
    obtain ⟨hr, hfirst'⟩ := hf r between hfirst hbetween
    rw [hfirst']
    exact ⟨hr, hsecond⟩

theorem Ignores.ite {c : Reader → Bool} {f g : Reader → Except Stop Reader}
    (hc : ∀ r, c (r.raised showTokens verbose) = c r) (hf : Ignores showTokens verbose f)
    (hg : Ignores showTokens verbose g) :
    Ignores showTokens verbose fun r => if c r then f r else g r := by
  intro r r' h hquiet
  dsimp only at h ⊢
  rw [hc r]
  cases hcr : c r with
  | true =>
    rw [hcr, if_pos rfl] at h
    rw [if_pos rfl]
    exact hf r r' h hquiet
  | false =>
    rw [hcr, if_neg Bool.false_ne_true] at h
    rw [if_neg Bool.false_ne_true]
    exact hg r r' h hquiet

namespace Reader

theorem ignores_store (option : ValueOption) (value : String) :
    Ignores showTokens verbose fun r => r.store option value := by
  intro r r' h hquiet
  cases option with
  | file =>
    simp only [store] at h ⊢
    split_ifs at h with hfile hvalue
    cases h
    exact ⟨hquiet, (if_neg hfile).trans (if_neg hvalue)⟩
  | define =>
    simp only [store] at h ⊢
    cases hbinding : parseBinding value with
    | error e =>
      rw [hbinding] at h
      cases h
    | ok b =>
      rw [hbinding] at h
      cases h
      exact ⟨hquiet, rfl⟩

theorem ignores_settle : Ignores showTokens verbose settle := by
  intro r r' h hquiet
  obtain ⟨options, pending, onlyFormulas⟩ := r
  match pending with
  | none =>
    cases h
    exact ⟨hquiet, rfl⟩
  | some (option, none) => cases h
  | some (option, some value) => exact ignores_store option value _ r' h hquiet

/-- A flag for the log is noted, and any other ends the reading. -/
theorem ignores_raise (flag : Flag) : Ignores showTokens verbose fun r => r.raise flag := by
  refine ignores_settle.bind fun r r' h hquiet => ?_
  cases flag with
  | help => cases h
  | version => cases h
  | showTokens =>
    dsimp only at h
    split at h
    · cases h
    · cases h
      cases hquiet.1
  | verbose =>
    dsimp only at h
    split at h
    · cases h
    · cases h
      cases hquiet.2

theorem ignores_take (option : ValueOption) (attached : Option String) :
    Ignores showTokens verbose fun r => r.take option attached := by
  refine ignores_settle.bind fun r r' h hquiet => ?_
  cases attached with
  | some value => exact ignores_store option value r r' h hquiet
  | none =>
    cases h
    exact ⟨hquiet, rfl⟩

theorem ignores_readFormula (argument : String) :
    Ignores showTokens verbose fun r => r.readFormula argument := by
  refine ignores_settle.bind fun r r' h hquiet => ?_
  cases h
  exact ⟨hquiet, rfl⟩

theorem ignores_readLong (body : List Char) :
    Ignores showTokens verbose fun r => r.readLong body := by
  rcases hbody : splitAtEquals body with ⟨name, attached⟩
  simp only [readLong, hbody]
  cases longOption? (String.ofList name) with
  | none => exact fun r r' h _ => by cases h
  | some option =>
    cases option with
    | inl option => exact ignores_take option _
    | inr flag =>
      cases attached with
      | none => exact ignores_raise flag
      | some value => exact fun r r' h _ => by cases h

theorem ignores_readShort (row : List Char) :
    Ignores showTokens verbose fun r => r.readShort row := by
  induction row with
  | nil =>
    intro r r' h hquiet
    cases h
    exact ⟨hquiet, rfl⟩
  | cons c rest ih =>
    simp only [readShort]
    cases shortOption? c with
    | none => exact fun r r' h _ => by cases h
    | some option =>
      cases option with
      | inr flag => exact (ignores_raise flag).bind ih
      | inl option =>
        dsimp only
        split
        · exact ignores_take option none
        · exact ignores_take option _
        · exact ignores_take option _

theorem ignores_read (argument : String) :
    Ignores showTokens verbose fun r => r.read argument := by
  refine Ignores.ite (fun _ => rfl) (ignores_readFormula argument) ?_
  split
  · intro r r' h hquiet
    cases h
    exact ⟨hquiet, rfl⟩
  · exact ignores_readLong _
  · exact ignores_readShort _
  · intro r r' h hquiet
    obtain ⟨options, pending, onlyFormulas⟩ := r
    match pending with
    | none => exact ignores_readFormula argument _ r' h hquiet
    | some (option, some value) => exact ignores_readFormula argument _ r' h hquiet
    | some (option, none) =>
      cases h
      exact ⟨hquiet, rfl⟩

/-- **Flags are not looked at again.** -/
theorem ignores_readAll (arguments : List String) :
    Ignores showTokens verbose fun r => r.readAll arguments := by
  induction arguments with
  | nil => exact ignores_settle
  | cons argument rest ih => exact Ignores.bind (ignores_read argument) ih

end Reader

/-- The flags for the log, as arguments. -/
def flagArguments (showTokens verbose : Bool) : List String :=
  (if showTokens then ["--show"] else []) ++ if verbose then ["--verbose"] else []

/-- **Flags can be put before arguments.** Where arguments without flags for the log are accepted
they are accepted after any of these flags, and the options differ in the flags only. -/
theorem parseArguments_flags {arguments : List String} {o : Options}
    (h : parseArguments arguments = .ok o) (hshow : o.showTokens = false)
    (hverbose : o.verbose = false) (showTokens verbose : Bool) :
    parseArguments (flagArguments showTokens verbose ++ arguments)
      = .ok { o with showTokens := showTokens, verbose := verbose } := by
  have hflags : Reader.start.readAll (flagArguments showTokens verbose ++ arguments)
      = (Reader.start.raised showTokens verbose).readAll arguments := by
    cases showTokens <;> cases verbose <;> rfl
  rw [parseArguments] at h ⊢
  rw [hflags]
  cases hread : Reader.start.readAll arguments with
  | error e =>
    rw [hread] at h
    cases h
  | ok r =>
    rw [hread] at h
    cases h
    have hraised : (Reader.start.raised showTokens verbose).readAll arguments
        = .ok (r.raised showTokens verbose) :=
      (Reader.ignores_readAll arguments _ r hread ⟨hshow, hverbose⟩).2
    rw [hraised]
    rfl

end CommandLine

end Formulary
