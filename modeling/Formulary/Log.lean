import Formulary.Formula
import Formulary.Log.Threshold
import Formulary.Text.Control

/-!
# The log

What a run records about its work, apart from its results: the formulas it generates, with the
tokens of each, and what becomes of them. A record has a message and perhaps named fields, and the
records of a generation carry the names of the formulas being generated, from the outermost to the
innermost.

## Main definitions

* `Record`, `Record.text` — a record and the line it is written as
* `generationLog` — the records of a generation

## Implementation notes

Control characters are written out in messages only; fields and names show what they hold.
-/

namespace Formulary

/-- A record: its level, the formulas being generated, what it says, and named particulars. -/
structure Record where
  level : Level
  generating : List String
  message : String
  fields : List (String × String)
deriving DecidableEq, Repr

namespace Record

/-- A record that belongs to no generation. -/
def plain (level : Level) (message : String) (fields : List (String × String)) : Record :=
  ⟨level, [], message, fields⟩

/-- The generations that a record belongs to, as the start of its message. -/
def context (r : Record) : String :=
  if r.generating.isEmpty then ""
  else
    String.intercalate ":" (r.generating.map fun name => "generate\x7bname=" ++ name ++ "\x7d")
      ++ ": "

/-- The line of a record. -/
def text (r : Record) : String :=
  r.level.label ++ " " ++ r.context ++ Text.withControlsSpelt r.message
    ++ String.join (r.fields.map fun field => " " ++ field.1 ++ "=" ++ field.2)

end Record

/-- The records of a list of tokens: their number and each of them. -/
def tokensLog (generating : List String) (title : String) (tokens : List Token) : List Record :=
  ⟨.trace, generating, title, [("count", toString tokens.length)]⟩ ::
    tokens.map fun t => ⟨.trace, generating, " " ++ t.text, []⟩

/-- The records of the groups among lexemes, up to the first that is no formula. -/
def groupsLog (provider : Provider) : (lexemes : List Lexeme) →
    (groupLog : (g : String) → .group g ∈ lexemes → List Record) → List Record
  | [], _ => []
  | .group g :: rest, groupLog =>
    groupLog g (by simp) ++
      match parse provider g with
      | .error _ => []
      | .ok _ => groupsLog provider rest fun g' h => groupLog g' (by simp [h])
  | _ :: rest, groupLog => groupsLog provider rest fun g' h => groupLog g' (by simp [h])

/-- The records of the generation of a text under a name, within the generations of `outer`. -/
def generationLog (provider : Provider) (outer : List String) (name source : String) :
    List Record :=
  ⟨.debug, outer ++ [name], "generating expression", [("source", source)]⟩ ::
    groupsLog provider (lexemesOf source).lexemes
      (fun g _h => generationLog provider (outer ++ [name]) g g)
    ++ match scan provider source with
      | .error _ => []
      | .ok tokens =>
        tokensLog (outer ++ [name]) "scan tokens" tokens
        ++ match arrange tokens with
          | .error _ => []
          | .ok program => tokensLog (outer ++ [name]) "postfix tokens" program
termination_by source.length
decreasing_by exact length_lt_of_group_mem _h

end Formulary
