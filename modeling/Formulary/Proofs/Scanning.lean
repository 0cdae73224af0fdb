import Formulary.Scanner

/-!
# Scanning one lexeme

What the scanner makes of a text that begins with a lexeme of a given sort: it finds the lexeme and
goes on with the rest of the text, between tokens or where an operand is due. The rest only has to
begin with a character that does not belong to the lexeme. There always is such a character, for
the mark at the end belongs to none.

## Main definitions

* `Captured` — texts that are taken into a group as they stand

## Main results

* `scanFrom_reference`, `scanFrom_function` — names
* `scanFrom_sign`, `scanFrom_binary` — operators before and between operands
* `Captured.scanFrom_group` — groups
-/

namespace Formulary

theorem push_ofList (read : List Char) (c : Char) :
    (String.ofList read).push c = String.ofList (read ++ [c]) := by
  rw [String.push_eq_append, String.ofList_append, String.singleton_eq_ofList]

/-- A decision that keeps the character done with and finds nothing. -/
theorem scanFrom_cons_of_goOn {mode mode' : Mode} {c : Char} {rest : List Char}
    (h : mode.handle c (rest.headD endMark) = .ok ⟨mode', none, .one⟩) :
    scanFrom mode (c :: rest) = scanFrom mode' rest := by
  rw [scanFrom_cons_of_ok h, Scan.after_none, Move.rest]

/-- Characters that leave a mode as it is, but for what it has read, are read into it. -/
theorem scanFrom_append_of_goOn {mode : String → Mode} {good : Char → Prop}
    (h : ∀ read c next, good c → (mode read).handle c next = .ok ⟨mode (read.push c), none, .one⟩)
    (read : List Char) {cs : List Char} (hcs : ∀ c ∈ cs, good c) (rest : List Char) :
    scanFrom (mode (String.ofList read)) (cs ++ rest)
      = scanFrom (mode (String.ofList (read ++ cs))) rest := by
  induction cs generalizing read with
  | nil => simp
  | cons c cs ih =>
    have hstep := h (String.ofList read) c ((cs ++ rest).headD endMark) (hcs c List.mem_cons_self)
    rw [List.cons_append, scanFrom_cons_of_goOn hstep, push_ofList,
      ih (read ++ [c]) fun d hd => hcs d (List.mem_cons_of_mem _ hd)]
    simp

/-! ### Where an operand is due -/

/-- Where an operand is due, signs and the mark at the end apart, a token may start. -/
theorem scanFrom_start {c : Char} (hadd : c ≠ '+') (hsubtract : c ≠ '-') (hend : c ≠ endMark)
    (rest : List Char) : scanFrom .start (c :: rest) = scanFrom .top (c :: rest) := by
  have h : Mode.start.handle c (rest.headD endMark) = .ok ⟨.top, none, .again⟩ := by
    simp [Mode.handle, Mode.atStart, hadd, hsubtract, hend]
  rw [scanFrom_cons_of_ok h, Scan.after_none, Move.rest]

/-- A sign where an operand is due stands before it. -/
theorem scanFrom_sign {symbol : Symbol} (h : symbol = .add ∨ symbol = .subtract)
    (rest : List Char) :
    scanFrom .start (symbol.text.toList ++ rest)
      = (scanFrom .start rest).after (some (.operator (.unary symbol))) := by
  rcases h with rfl | rfl
  · have hstep : Mode.start.handle '+' (rest.headD endMark)
        = .ok ⟨.start, some (.operator (.unary .add)), .one⟩ := rfl
    exact scanFrom_cons_of_ok hstep
  · have hstep : Mode.start.handle '-' (rest.headD endMark)
        = .ok ⟨.start, some (.operator (.unary .subtract)), .one⟩ := rfl
    exact scanFrom_cons_of_ok hstep

/-- Where a token may start, the mark at the end ends the text. -/
theorem scanFrom_top_end : scanFrom .top [endMark] = ⟨[], none⟩ := by
  have hstep : Mode.top.handle endMark (([] : List Char).headD endMark)
      = .ok ⟨.top, none, .one⟩ := rfl
  rw [scanFrom_cons_of_goOn hstep, scanFrom_nil]
  rfl

theorem scanFrom_start_end : scanFrom .start [endMark] = ⟨[], none⟩ := by
  have hstep : Mode.start.handle endMark (([] : List Char).headD endMark)
      = .ok ⟨.start, none, .one⟩ := rfl
  rw [scanFrom_cons_of_goOn hstep, scanFrom_nil]
  rfl

/-! ### Names -/

/-- A name begins with a letter, and goes on with the characters of names. -/
theorem scanFrom_top_name {c : Char} (hc : c.isAlpha = true) {cs : List Char}
    (hcs : ∀ d ∈ cs, isNameChar d = true) (rest : List Char) :
    scanFrom .top (c :: cs ++ rest) = scanFrom (.name (String.ofList (c :: cs))) rest := by
  have hend : c ≠ endMark := by
    rintro rfl
    exact absurd hc (by decide)
  have hstep : Mode.top.handle c ((cs ++ rest).headD endMark)
      = .ok ⟨.name (String.ofList [c]), none, .one⟩ := by
    rw [Mode.handle, Mode.atTop, if_neg hend, if_pos hc, String.singleton_eq_ofList]
    rfl
  rw [List.cons_append, scanFrom_cons_of_goOn hstep]
  refine scanFrom_append_of_goOn (fun read d next hd => ?_) [c] hcs rest
  rw [Mode.handle, Mode.inName, if_pos hd]
  rfl

/-- A name that is not the name of a function refers to a value. -/
theorem scanFrom_reference {c : Char} (hc : c.isAlpha = true) {cs : List Char}
    (hcs : ∀ d ∈ cs, isNameChar d = true) (hname : Symbol.ofText? (String.ofList (c :: cs)) = none)
    {next : Char} (hnext : isNameChar next = false) (rest : List Char) :
    scanFrom .top (c :: cs ++ next :: rest)
      = (scanFrom .top (next :: rest)).after (some (.reference (String.ofList (c :: cs)))) := by
  have hstep : (Mode.name (String.ofList (c :: cs))).handle next (rest.headD endMark)
      = .ok ⟨.top, some (.reference (String.ofList (c :: cs))), .again⟩ := by
    rw [Mode.handle, Mode.inName, if_neg (by simp [hnext]), hname]
  rw [scanFrom_top_name hc hcs, scanFrom_cons_of_ok hstep, Move.rest]

/-- A letter is no sign and not the mark at the end. -/
theorem scanFrom_start_of_isAlpha {c : Char} (hc : c.isAlpha = true) (rest : List Char) :
    scanFrom .start (c :: rest) = scanFrom .top (c :: rest) := by
  refine scanFrom_start ?_ ?_ ?_ rest <;> rintro rfl <;> exact absurd hc (by decide)

/-- The name of a function is a name. -/
theorem Symbol.exists_text_eq_of_isFunction {symbol : Symbol} (h : symbol.isFunction = true) :
    ∃ c cs, symbol.text.toList = c :: cs ∧ c.isAlpha = true ∧ ∀ d ∈ cs, isNameChar d = true := by
  have hname : symbol.text.toList.head?.any Char.isAlpha = true := by
    rw [← isFunction_eq_isAlpha_head, h]
  have hrest : symbol.text.toList.tail.all isNameChar = true := by
    cases symbol <;> first | rfl | cases h
  cases htext : symbol.text.toList with
  | nil => simp [htext] at hname
  | cons c cs =>
    refine ⟨c, cs, rfl, by simpa [htext] using hname, ?_⟩
    simpa [htext] using hrest

/-- The name of a function stands before its operand. -/
theorem scanFrom_function {symbol : Symbol} (h : symbol.isFunction = true) {next : Char}
    (hnext : isNameChar next = false) (rest : List Char) :
    scanFrom .top (symbol.text.toList ++ next :: rest)
      = (scanFrom .start (next :: rest)).after (some (.operator (.unary symbol))) := by
  obtain ⟨c, cs, htext, hc, hcs⟩ := symbol.exists_text_eq_of_isFunction h
  have hread : String.ofList (c :: cs) = symbol.text := by rw [← htext, String.ofList_toList]
  have hstep : (Mode.name (String.ofList (c :: cs))).handle next (rest.headD endMark)
      = .ok ⟨.start, some (.operator (.unary symbol)), .again⟩ := by
    simp [Mode.handle, Mode.inName, hnext, hread]
  rw [htext, scanFrom_top_name hc hcs, scanFrom_cons_of_ok hstep, Move.rest]

/-! ### Operators between operands -/

/-- The symbol of an operator between operands that is a single character is found at it, unless it
makes a longer symbol with the character after it. -/
theorem Mode.handle_top_of_text_eq_singleton {symbol : Symbol} {c : Char}
    (htext : symbol.text.toList = [c]) {next : Char} (hpair : isPair c next = false) :
    Mode.top.handle c next = .ok ⟨.start, some (.operator (.binary symbol)), .one⟩ := by
  have hfound : Mode.atOperator.found c [c] .one
      = .ok ⟨.start, some (.operator (.binary symbol)), .one⟩ := by
    rw [atOperator.found, ← htext, String.ofList_toList, Symbol.ofText?_text]
  have htop : Mode.top.handle c next = Mode.atOperator c next ∧ ¬ (c = '=' ∨ c = '!') := by
    cases symbol <;> simp [Symbol.text] at htext <;> subst htext <;> exact ⟨rfl, by decide⟩
  rw [htop.1, atOperator, if_neg (by simp [hpair]), if_neg htop.2, hfound]

/-- The symbol of an operator between operands that is two characters is found at the first. -/
theorem Mode.handle_top_of_text_eq_pair {symbol : Symbol} {c d : Char}
    (htext : symbol.text.toList = [c, d]) :
    Mode.top.handle c d = .ok ⟨.start, some (.operator (.binary symbol)), .two⟩ := by
  have hfound : Mode.atOperator.found c [c, d] .two
      = .ok ⟨.start, some (.operator (.binary symbol)), .two⟩ := by
    rw [atOperator.found, ← htext, String.ofList_toList, Symbol.ofText?_text]
  have htop : Mode.top.handle c d = Mode.atOperator c d ∧ isPair c d = true := by
    cases symbol <;> simp [Symbol.text] at htext <;> obtain ⟨rfl, rfl⟩ := htext <;>
      exact ⟨rfl, rfl⟩
  rw [htop.1, atOperator, if_pos htop.2, hfound]

/-- The symbol of an operator between operands is one character or two. -/
theorem Symbol.text_eq_singleton_or_pair {symbol : Symbol} (h : symbol.isFunction = false) :
    (∃ c, symbol.text.toList = [c]) ∨ ∃ c d, symbol.text.toList = [c, d] := by
  cases symbol <;> first | exact .inl ⟨_, rfl⟩ | exact .inr ⟨_, _, rfl⟩ | cases h

/-- Only three characters make a longer symbol with the one before them. -/
theorem isPair_eq_false {next : Char} (h : next ∉ ['>', '=', '*']) (c : Char) :
    isPair c next = false := by
  unfold isPair
  split
  all_goals first | rfl | exact absurd (by decide) h

/-- Between tokens the symbol of an operator stands between operands, unless it is a single
character that makes a longer symbol with the one after it. -/
theorem scanFrom_binary {symbol : Symbol} (h : symbol.isFunction = false) (rest : List Char)
    (hpair : ∀ c, symbol.text.toList = [c] → isPair c (rest.headD endMark) = false) :
    scanFrom .top (symbol.text.toList ++ rest)
      = (scanFrom .start rest).after (some (.operator (.binary symbol))) := by
  rcases symbol.text_eq_singleton_or_pair h with ⟨c, htext⟩ | ⟨c, d, htext⟩
  · rw [htext]
    exact scanFrom_cons_of_ok (Mode.handle_top_of_text_eq_singleton htext (hpair c htext))
  · have hstep : Mode.top.handle c ((d :: rest).headD endMark)
        = .ok ⟨.start, some (.operator (.binary symbol)), .two⟩ :=
      Mode.handle_top_of_text_eq_pair htext
    rw [htext]
    exact scanFrom_cons_of_ok hstep

/-! ### Groups -/

namespace Mode

variable (depth : Nat) (read : List Char) (next : Char)

theorem handle_group_open :
    (Mode.group depth (String.ofList read)).handle '(' next
      = .ok ⟨.group (depth + 1) (String.ofList (read ++ ['('])), none, .one⟩ := by
  rw [handle, inGroup, if_pos rfl, push_ofList]
  rfl

theorem handle_group_close :
    (Mode.group (depth + 2) (String.ofList read)).handle ')' next
      = .ok ⟨.group (depth + 1) (String.ofList (read ++ [')'])), none, .one⟩ := by
  rw [handle, inGroup, if_neg (by decide), if_pos rfl, if_neg (by omega), push_ofList]
  rfl

theorem handle_group_end :
    (Mode.group 1 (String.ofList read)).handle ')' next
      = if read.isEmpty then .error .emptyGroup
        else .ok ⟨.top, some (.group (String.ofList read)), .one⟩ := by
  rw [handle, inGroup, if_neg (by decide), if_pos rfl, if_pos rfl]
  simp

theorem handle_group_other {c : Char} (hopen : c ≠ '(') (hclose : c ≠ ')') (hend : c ≠ endMark) :
    (Mode.group depth (String.ofList read)).handle c next
      = .ok ⟨.group depth (String.ofList (read ++ [c])), none, .one⟩ := by
  rw [handle, inGroup, if_neg hopen, if_neg hclose, if_neg hend, push_ofList]
  rfl

end Mode

/-- Texts that the scanner takes into a group as they stand. Parentheses match in them, for they do
not change how many have been opened, and the group is not closed on the way. -/
def Captured (cs : List Char) : Prop :=
  ∀ depth read rest, scanFrom (.group (depth + 1) (String.ofList read)) (cs ++ rest)
    = scanFrom (.group (depth + 1) (String.ofList (read ++ cs))) rest

namespace Captured

theorem append {cs ds : List Char} (hcs : Captured cs) (hds : Captured ds) :
    Captured (cs ++ ds) := by
  intro depth read rest
  rw [List.append_assoc, hcs, hds, List.append_assoc]

/-- A text without parentheses is taken as it stands. -/
theorem of_forall {cs : List Char} (h : ∀ c ∈ cs, c ≠ '(' ∧ c ≠ ')' ∧ c ≠ endMark) :
    Captured cs := by
  intro depth read rest
  refine scanFrom_append_of_goOn (fun read c next hc => ?_) read h rest
  rw [Mode.handle, Mode.inGroup, if_neg hc.1, if_neg hc.2.1, if_neg hc.2.2]
  rfl

/-- A group is taken as it stands, with its parentheses. -/
theorem parens {cs : List Char} (h : Captured cs) : Captured ('(' :: cs ++ [')']) := by
  intro depth read rest
  calc scanFrom (.group (depth + 1) (String.ofList read)) ('(' :: cs ++ [')'] ++ rest)
      = scanFrom (.group (depth + 1) (String.ofList read)) ('(' :: (cs ++ ')' :: rest)) := by simp
    _ = scanFrom (.group (depth + 2) (String.ofList (read ++ ['(']))) (cs ++ ')' :: rest) :=
        scanFrom_cons_of_goOn (Mode.handle_group_open _ _ _)
    _ = scanFrom (.group (depth + 2) (String.ofList (read ++ ['('] ++ cs))) (')' :: rest) :=
        h _ _ _
    _ = scanFrom (.group (depth + 1) (String.ofList (read ++ ['('] ++ cs ++ [')']))) rest :=
        scanFrom_cons_of_goOn (Mode.handle_group_close _ _ _)
    _ = scanFrom (.group (depth + 1) (String.ofList (read ++ ('(' :: cs ++ [')'])))) rest := by
        simp

/-- Between tokens a text in parentheses is a group. -/
theorem scanFrom_group {cs : List Char} (h : Captured cs) (hne : cs ≠ []) (rest : List Char) :
    scanFrom .top ('(' :: cs ++ ')' :: rest)
      = (scanFrom .top rest).after (some (.group (String.ofList cs))) := by
  have hopen : Mode.top.handle '(' ((cs ++ ')' :: rest).headD endMark)
      = .ok ⟨.group 1 (String.ofList []), none, .one⟩ := rfl
  have hclose : (Mode.group 1 (String.ofList ([] ++ cs))).handle ')' (rest.headD endMark)
      = .ok ⟨.top, some (.group (String.ofList cs)), .one⟩ :=
    (Mode.handle_group_end _ _).trans (if_neg (by simpa using hne))
  rw [List.cons_append, scanFrom_cons_of_goOn hopen, h, scanFrom_cons_of_ok hclose, Move.rest]

/-- Where an operand is due, too, a text in parentheses is a group. -/
theorem scanFrom_start_group {cs : List Char} (h : Captured cs) (hne : cs ≠ [])
    (rest : List Char) :
    scanFrom .start ('(' :: cs ++ ')' :: rest)
      = (scanFrom .top rest).after (some (.group (String.ofList cs))) := by
  rw [← h.scanFrom_group hne]
  exact scanFrom_start (by decide) (by decide) (by decide) _

end Captured

end Formulary
