/-!
# Dependencies between numbered things

A list of things, each with the numbers of the things it depends on. The number of a thing is its
place in the list.

## Main definitions

* `Dependencies` — for each thing the things it depends on
* `Dependencies.Needs` — direct dependency
* `Dependencies.reachable`, `Dependencies.onCycle` — dependency through one or more steps, and the
  things that depend on themselves
* `Dependencies.order` — an order in which everything comes after what it depends on

## Implementation notes

The order is found by keeping, for each thing, the number of its dependencies that are not placed
yet. The things that wait for nothing are ready, and of these the one that `before` prefers is
placed next. When things depend on themselves they never become ready and the order lacks them.
-/

namespace Formulary

/-- For each thing the distinct things that it depends on. -/
structure Dependencies where
  lists : List (List Nat)
deriving DecidableEq, Repr

namespace Dependencies

variable (g : Dependencies)

/-- The number of things. -/
def size : Nat := g.lists.length

/-- The things that `i` depends on. -/
def of (i : Nat) : List Nat := g.lists.getD i []

/-- Whether `i` depends on `j` directly. -/
def needs (i j : Nat) : Bool := (g.of i).contains j

/-- Direct dependency of `i` on `j`. -/
def Needs (i j : Nat) : Prop := j ∈ g.of i

instance (i j : Nat) : Decidable (g.Needs i j) := inferInstanceAs (Decidable (j ∈ g.of i))

/-! ### Reachability -/

/-- The things in `found`, and those that the things in `frontier` depend on through at most `steps`
steps. What the rest of `found` depends on is in `found` already. -/
def closure : (steps : Nat) → (found frontier : List Nat) → List Nat
  | 0, found, _ => found
  | steps + 1, found, frontier =>
    let fresh := ((frontier.flatMap g.of).filter fun j => !found.contains j).eraseDups
    if fresh.isEmpty then found else closure steps (found ++ fresh) fresh

/-- The things that `i` depends on through one or more steps. -/
def reachable (i : Nat) : List Nat := g.closure g.size (g.of i) (g.of i)

/-- Whether a thing depends on itself. -/
def onCycle (i : Nat) : Bool := (g.reachable i).contains i

/-- Whether something depends on itself. -/
def isCyclic : Bool := (List.range g.size).any g.onCycle

/-! ### Ordering -/

/-- How far an order has been found. -/
structure Progress where
  /-- The things that have their place, in order. -/
  placed : List Nat
  /-- For each thing the number of its dependencies that have no place yet. -/
  waiting : List Nat
  /-- The things without a place that wait for nothing. -/
  ready : List Nat

/-- Nothing has a place. -/
def start : Progress where
  placed := []
  waiting := g.lists.map List.length
  ready := (List.range g.size).filter fun i => (g.of i).isEmpty

/-- Gives a thing the next place; the things that waited for nothing else become ready. -/
def place (s : Progress) (i : Nat) : Progress :=
  let waiting := s.waiting.mapIdx fun d n => if g.needs d i then n - 1 else n
  let freed := (List.range g.size).filter fun d => g.needs d i && waiting.getD d 0 == 0
  ⟨s.placed ++ [i], waiting, s.ready.erase i ++ freed⟩

/-- The first of a list in the order given by `before`. -/
def first? (before : Nat → Nat → Bool) : List Nat → Option Nat
  | [] => none
  | i :: rest =>
    match first? before rest with
    | none => some i
    | some j => if before j i then some j else some i

/-- Gives places until nothing is ready, at most `steps` of them. -/
def advance (before : Nat → Nat → Bool) : (steps : Nat) → Progress → Progress
  | 0, s => s
  | steps + 1, s =>
    match first? before s.ready with
    | none => s
    | some i => advance before steps (g.place s i)

/-- The things in an order in which each comes after those it depends on, the one that `before`
prefers first wherever there is a choice. -/
def order (before : Nat → Nat → Bool) : List Nat := (g.advance before g.size g.start).placed

end Dependencies

end Formulary
