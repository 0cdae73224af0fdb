import Formulary.Proofs.Faults
import Formulary.Proofs.Grammar
import Mathlib.Data.List.GetD

/-!
# The turns of the scanner

The scanner keeps an index into the text: how many characters it has read. At each turn it reads a
character, which raises the index, and decides. A decision may lower the index again, so that the
same character is read once more in another mode, or raise it once more, so that the character after
it is passed over. The index is thus not monotone, and neither is the number of parentheses that are
open in a group.

What bounds the number of turns is the index together with the rank of the mode: a character is read
again in a mode of smaller rank only, and there are three ranks. What keeps the index and the number
of open parentheses from falling below zero is where they are lowered: the index only right after it
has been raised, and the number only in a group, which has at least its own parenthesis open.

## Main definitions

* `Turn` — a character that is read, where and in which mode
* `turnsFrom`, `turnsOf` — the turns on the rest of a text, and on a text
* `Turn.lookedUp?` — the operator that is looked up at a turn
* `Turn.IsSafe` — whether a turn asks for nothing that is not there

## Main results

* `length_turnsFrom_add_two_le` — how many turns there are
* `filterMap_found?_turnsFrom` — what is found at the turns is what the scanner finds
* `Passes.of_mem_turnsFrom` — each turn is a step of the scanner at its place of the text
* `turnsOf_bounded` — the scanner stops in time, no counter falls below zero, every operator that is
  looked up is there, and groups get shorter
-/

namespace Formulary

open Relation

/-! ### Turns -/

/-- A turn of the scanner: how many characters have been read, the one of this turn included, what
the scanner is in the middle of, and the character of this turn with the one after it. -/
structure Turn where
  index : Nat
  mode : Mode
  char : Char
  next : Char
deriving DecidableEq, Repr

namespace Turn

/-- What is decided at a turn. -/
def decision (t : Turn) : Except ParseError Decision := t.mode.handle t.char t.next

/-- What is found at a turn. -/
def found? (t : Turn) : Option Lexeme :=
  match t.decision with
  | .error _ => none
  | .ok d => d.found

end Turn

/-- The index after a move. -/
def Move.index (index : Nat) : Move → Nat
  | again => index - 1
  | one => index
  | two => index + 1

/-- A move brings the end nearer, or leads to a mode of smaller rank. -/
theorem Move.measure_index_lt {move : Move} {length index rank rank' : Nat}
    (hindex : index < length) (h : move = .again → rank' < rank) (hle : rank' ≤ 2) :
    3 * (length - move.index (index + 1)) + rank' < 3 * (length - index) + rank := by
  cases move with
  | again =>
    have := h rfl
    simp only [Move.index]
    omega
  | one =>
    simp only [Move.index]
    omega
  | two =>
    simp only [Move.index]
    omega

/-- The turns on a text, which ends in a mark, from an index and a mode on. The last turn is one
whose decision fails, or one that leaves nothing to read. -/
def turnsFrom (text : List Char) (index : Nat) (mode : Mode) : List Turn :=
  match _hc : text[index]? with
  | none => []
  | some c =>
    let t : Turn := ⟨index + 1, mode, c, text.getD (index + 1) endMark⟩
    match _hd : t.decision with
    | .error _ => [t]
    | .ok d => t :: turnsFrom text (d.move.index t.index) d.mode
termination_by 3 * (text.length - index) + mode.rank
decreasing_by
  exact Move.measure_index_lt (List.getElem?_eq_some_iff.mp _hc).1
    (Mode.rank_lt_of_handle_again _hd) d.mode.rank_le

/-- The turns on a text. -/
def turnsOf (source : String) : List Turn :=
  turnsFrom (Text.visible source ++ [endMark]) 0 .start

/-! ### How many turns there are -/

/-- Nothing is left to read at the end. -/
theorem turnsFrom_eq_nil {text : List Char} {index : Nat} (h : text.length ≤ index) (mode : Mode) :
    turnsFrom text index mode = [] := by
  rw [turnsFrom]
  split
  · rfl
  · rename_i hc
    rw [List.getElem?_eq_none h] at hc
    cases hc

/-- **Turns are bounded**: by three for each character that is left, less two, and by the rank of
the mode. The last character is read once when it is the last turn. -/
theorem length_turnsFrom_add_two_le {text : List Char} {index : Nat} (h : index < text.length)
    (mode : Mode) :
    (turnsFrom text index mode).length + 2 ≤ 3 * (text.length - index) + mode.rank := by
  fun_induction turnsFrom text index mode with
  | case1 index mode hc => exact absurd hc (by simpa using h)
  | case2 index mode c hc t e hd =>
    simp only [List.length_singleton]
    omega
  | case3 index mode c hc t d hd ih =>
    have hrank : d.move = .again → d.mode.rank < mode.rank := Mode.rank_lt_of_handle_again hd
    have hmeasure : 3 * (text.length - d.move.index t.index) + d.mode.rank
        < 3 * (text.length - index) + mode.rank :=
      Move.measure_index_lt h hrank d.mode.rank_le
    rw [List.length_cons]
    by_cases hleft : d.move.index t.index < text.length
    · have := ih hleft
      omega
    · rw [turnsFrom_eq_nil (Nat.le_of_not_lt hleft), List.length_nil]
      omega

/-! ### Turns and the scanner -/

section Places

variable {text : List Char} {index : Nat} {c : Char}

/-- The text from an index on, which begins with the character at it. -/
theorem drop_eq_cons (hc : text[index]? = some c) :
    text.drop index = c :: text.drop (index + 1) := by
  obtain ⟨hindex, rfl⟩ := List.getElem?_eq_some_iff.mp hc
  exact List.drop_eq_getElem_cons hindex

theorem headD_drop (text : List Char) (index : Nat) :
    (text.drop index).headD endMark = text.getD index endMark := by
  rw [List.headD_eq_head?_getD, List.head?_drop, List.getD_eq_getElem?_getD]

/-- What a move leaves of the text is the text from the index on that it leads to. -/
theorem Move.rest_drop (hc : text[index]? = some c) (move : Move) :
    move.rest c (text.drop (index + 1)) = text.drop (move.index (index + 1)) := by
  cases move with
  | again => exact (drop_eq_cons hc).symm
  | one => rfl
  | two => exact List.drop_drop

end Places

/-- **The turns are those of the scanner**: what is found at them is what it finds. -/
theorem filterMap_found?_turnsFrom (text : List Char) (index : Nat) (mode : Mode) :
    (turnsFrom text index mode).filterMap Turn.found?
      = (scanFrom mode (text.drop index)).lexemes := by
  fun_induction turnsFrom text index mode with
  | case1 index mode hc =>
    rw [List.drop_eq_nil_of_le (by simpa using hc), scanFrom_nil]
    rfl
  | case2 index mode c hc t e hd =>
    have hfound : t.found? = none := by rw [Turn.found?, hd]
    rw [drop_eq_cons hc, scanFrom_cons_of_error (e := e) (by rw [headD_drop]; exact hd)]
    simp [hfound]
  | case3 index mode c hc t d hd ih =>
    have hfound : t.found? = d.found := by rw [Turn.found?, hd]
    rw [drop_eq_cons hc, scanFrom_cons_of_ok (d := d) (by rw [headD_drop]; exact hd),
      Move.rest_drop hc, Scan.lexemes_after, List.filterMap_cons, ih, hfound]
    cases d.found <;> rfl

theorem filterMap_found?_turnsOf (source : String) :
    (turnsOf source).filterMap Turn.found? = (lexemesOf source).lexemes :=
  filterMap_found?_turnsFrom _ 0 .start

/-- The scanner passes through the mode of each turn, where the character of the turn comes next. -/
theorem Passes.of_mem_turnsFrom {text : List Char} {index : Nat} {mode : Mode} {t : Turn}
    (h : Passes text mode (text.drop index)) (ht : t ∈ turnsFrom text index mode) :
    1 ≤ t.index ∧ text[t.index - 1]? = some t.char ∧ t.next = text.getD t.index endMark ∧
      Passes text t.mode (t.char :: text.drop t.index) := by
  fun_induction turnsFrom text index mode with
  | case1 index mode hc => cases ht
  | case2 index mode c hc t' e hd =>
    obtain rfl := List.mem_singleton.mp ht
    exact ⟨Nat.succ_pos index, hc, rfl, drop_eq_cons hc ▸ h⟩
  | case3 index mode c hc t' d hd ih =>
    rw [drop_eq_cons hc] at h
    rcases List.mem_cons.mp ht with rfl | ht
    · exact ⟨Nat.succ_pos index, hc, rfl, h⟩
    · refine ih ?_ ht
      have hnext := h.step (by rw [headD_drop]; exact hd)
      rwa [Move.rest_drop hc] at hnext

/-! ### What a turn asks for -/

/-- The spelling of the operator that is looked up at a turn: of two characters if they make one. A
parenthesis is no operator, and a lone `=` or `!` is refused without a look. -/
def Turn.lookedUp? (t : Turn) : Option (List Char) :=
  if t.mode = .top ∧ isOperatorChar t.char = true ∧ t.char ≠ '(' ∧ t.char ≠ ')' then
    if isPair t.char t.next = true then some [t.char, t.next]
    else if t.char = '=' ∨ t.char = '!' then none
    else some [t.char]
  else none

/-- Every character of an operator is an operator, but for the parentheses, `=` and `!`. -/
theorem exists_text_eq_singleton {c : Char} (hc : isOperatorChar c = true)
    (hparens : c ≠ '(' ∧ c ≠ ')') (hlone : ¬ (c = '=' ∨ c = '!')) :
    ∃ symbol : Symbol, symbol.text.toList = [c] := by
  have hmem : c ∈ ['+', '-', '*', '/', '=', '!', '(', ')', '<', '>'] := by
    simpa [isOperatorChar] using hc
  simp only [List.mem_cons, List.not_mem_nil, or_false] at hmem
  rcases hmem with rfl | rfl | rfl | rfl | rfl | rfl | rfl | rfl | rfl | rfl
  · exact ⟨.add, rfl⟩
  · exact ⟨.subtract, rfl⟩
  · exact ⟨.multiply, rfl⟩
  · exact ⟨.divide, rfl⟩
  · exact absurd (.inl rfl) hlone
  · exact absurd (.inr rfl) hlone
  · exact absurd rfl hparens.1
  · exact absurd rfl hparens.2
  · exact ⟨.less, rfl⟩
  · exact ⟨.greater, rfl⟩

/-- **Operators that are looked up are there**, and they are found. -/
theorem Turn.exists_symbol_of_lookedUp? {t : Turn} {spelling : List Char}
    (h : t.lookedUp? = some spelling) :
    ∃ symbol move, Symbol.ofText? (String.ofList spelling) = some symbol ∧
      t.decision = .ok ⟨.start, some (.operator (.binary symbol)), move⟩ := by
  obtain ⟨index, mode, c, next⟩ := t
  have hread : ∀ {symbol : Symbol}, symbol.text.toList = spelling →
      Symbol.ofText? (String.ofList spelling) = some symbol := by
    rintro symbol rfl
    rw [String.ofList_toList, Symbol.ofText?_text]
  rw [lookedUp?] at h
  split at h
  · rename_i htop
    obtain ⟨rfl, hc, hparens⟩ := htop
    split at h
    · rename_i hpair
      cases h
      obtain ⟨symbol, htext⟩ := isPair_iff.mp hpair
      exact ⟨symbol, .two, hread htext, Mode.handle_top_of_text_eq_pair htext⟩
    · rename_i hpair
      split at h
      · cases h
      · rename_i hlone
        cases h
        obtain ⟨symbol, htext⟩ := exists_text_eq_singleton hc hparens hlone
        exact ⟨symbol, .one, hread htext,
          Mode.handle_top_of_text_eq_singleton htext (Bool.not_eq_true _ ▸ hpair)⟩
  · cases h

/-- The mark at the end is not passed over together with the character before it. -/
theorem Decides.next_ne_endMark {written : List Char} {c next : Char} {d : Decision}
    (h : Decides written c next (.ok d)) (hmove : d.move = .two) : next ≠ endMark := by
  have htaken : endMark ∉ d.move.taken c next → next ≠ endMark := by
    rintro hend rfl
    exact hend (by simp [hmove, Move.taken])
  cases h with
  | goesOn hend _ => exact htaken hend
  | ends hend _ _ _ => exact htaken hend
  | waits _ hone _ =>
    rw [hone] at hmove
    cases hmove

/-- In a group its own parenthesis is open, and no more are open than there are characters. -/
theorem Stands.depth_bounds {text left prior written ahead : List Char} {depth : Nat}
    {read : String} (h : Stands text (.group depth read) left prior written ahead) :
    1 ≤ depth ∧ depth ≤ text.length := by
  have hholds := h.holds
  cases hholds with
  | @group depth read hopen =>
    have hcount := (openAfter?_eq_some_iff.mp hopen).2
    have hle : read.count '(' ≤ read.length := List.count_le_length
    have hlength := congrArg List.length h.eq
    simp only [List.length_append, List.length_cons] at hlength
    omega

/-- Whether a turn on a text, which ends in a mark, asks for nothing that is not there. -/
structure Turn.IsSafe (text : List Char) (t : Turn) : Prop where
  /-- A character has been read, so that the index can be lowered. -/
  pos_index : 1 ≤ t.index
  /-- The character of the turn stands before the index. -/
  char_eq : text[t.index - 1]? = some t.char
  /-- The character after it stands at the index. -/
  next_eq : t.next = text.getD t.index endMark
  /-- The index is not raised past the end. -/
  index_le : ∀ d, t.decision = .ok d → d.move.index t.index ≤ text.length
  /-- In a group a parenthesis is open, so that the number of open ones can be lowered, and no more
  are open than there are characters. -/
  depth_bounds : ∀ depth read, t.mode = .group depth read → 1 ≤ depth ∧ depth < text.length
  /-- An operator that is looked up is there, and is found. -/
  exists_symbol : ∀ spelling, t.lookedUp? = some spelling →
    ∃ symbol move, Symbol.ofText? (String.ofList spelling) = some symbol ∧
      t.decision = .ok ⟨.start, some (.operator (.binary symbol)), move⟩

/-- **Turns are safe.** -/
theorem Turn.isSafe_of_mem {source : String} {t : Turn} (ht : t ∈ turnsOf source) :
    t.IsSafe (Text.visible source ++ [endMark]) := by
  have hend := endMark_not_mem_visible source
  obtain ⟨hpos, hchar, hnext, hpasses⟩ := Passes.start.of_mem_turnsFrom ht
  obtain ⟨prior, written, ahead, hstands⟩ := hpasses.exists_stands hend
  refine ⟨hpos, hchar, hnext, fun d hd => ?_, fun depth read hmode => ?_,
    fun spelling => exists_symbol_of_lookedUp?⟩
  · have hindex := (List.getElem?_eq_some_iff.mp hchar).1
    have hdecides := hstands.holds.decides t.char t.next
    rw [← decision, hd] at hdecides
    cases hmove : d.move with
    | again =>
      simp only [Move.index]
      omega
    | one =>
      simp only [Move.index]
      omega
    | two =>
      have hne := hdecides.next_ne_endMark hmove
      rw [hnext] at hne
      have hlt : t.index < (Text.visible source ++ [endMark]).length := by
        by_contra hge
        exact hne (List.getD_eq_default _ _ (Nat.le_of_not_lt hge))
      exact hlt
  · rw [hmode] at hstands
    have hbounds := hstands.depth_bounds
    simp only [List.length_append, List.length_singleton]
    omega

/-! ### The scanner stops -/

/-- **The scanner stops in time.** On a text of `m` characters that are no blanks it has at most
`3 * (m + 1)` turns, and what is found at them is what it finds. No turn lowers the index or the
number of open parentheses below zero, or raises one past what there is, and each operator that is
looked up is there. The text of a group is at least two characters shorter, so that groups in groups
come to an end. -/
theorem turnsOf_bounded (source : String) :
    (turnsOf source).filterMap Turn.found? = (lexemesOf source).lexemes ∧
    (turnsOf source).length ≤ 3 * ((Text.visible source).length + 1) ∧
    (∀ t ∈ turnsOf source, t.IsSafe (Text.visible source ++ [endMark])) ∧
    (∀ g, HasGroup source g → g.length + 2 ≤ (Text.visible source).length) ∧
    Acc (fun inner outer => HasGroup outer inner) source := by
  refine ⟨filterMap_found?_turnsOf source, ?_, fun t => Turn.isSafe_of_mem,
    fun g => length_add_two_le_of_group_mem, ?_⟩
  · have hlength : (Text.visible source ++ [endMark]).length
        = (Text.visible source).length + 1 := by simp
    have hindex : 0 < (Text.visible source ++ [endMark]).length := by simp
    have hturns := length_turnsFrom_add_two_le hindex .start
    rw [hlength, Mode.rank, Nat.sub_zero] at hturns
    rw [turnsOf]
    omega
  · exact Subrelation.accessible (fun h => length_lt_of_group_mem h)
      ((measure String.length).wf.apply source)

/-- In `sin(x)` the parenthesis after the name is read three times, and where the other one is read
the group has one open. -/
theorem turnsOf_bounded_function :
    (turnsOf "sin(x)").map Turn.index = [1, 1, 2, 3, 4, 4, 4, 5, 6, 7] ∧
      (turnsOf "sin(x)").length ≤ 3 * (6 + 1) ∧
      (∃ t ∈ turnsOf "sin(x)", t.mode = .group 1 "x" ∧ t.char = ')' ∧
        t.IsSafe ("sin(x)".toList ++ [endMark])) ∧
      HasGroup "sin(x)" "x" ∧ "x".length + 2 ≤ 6 := by
  obtain ⟨-, hlength, hsafe, hgroups, -⟩ := turnsOf_bounded "sin(x)"
  have hvisible : Text.visible "sin(x)" = "sin(x)".toList := by decide
  have hturn : (⟨6, .group 1 "x", ')', ' '⟩ : Turn) ∈ turnsOf "sin(x)" := by decide +kernel
  have hgroup : HasGroup "sin(x)" "x" := by
    have hlexemes : (lexemesOf "sin(x)").lexemes = [.operator (.unary .sin), .group "x"] := by
      decide +kernel
    rw [HasGroup, hlexemes]
    exact List.mem_cons_of_mem _ (List.mem_singleton_self _)
  rw [hvisible] at hlength hsafe hgroups
  exact ⟨by decide +kernel, hlength, ⟨_, hturn, rfl, rfl, hsafe _ hturn⟩, hgroup, hgroups _ hgroup⟩

end Formulary
