import Ebnf.Proofs.Classes.Items
import Ebnf.Proofs.Classes.Tokens

/-! Classes read in one pass. A class can be read without splitting it into atoms first: turn by
turn an item is taken from the characters ahead, be it a shorthand, a literal or a range with an end
of its own, until a bracket stands where an item would. This finds the same items, and where the
text is a token, which the scanner ended by pairing backslashes only, it ends at the same bracket.
So it never runs out of characters, and it leaves none behind. -/

namespace Ebnf

namespace ClassPass

inductive Halt where
  | ended (inRange : Bool)
  | refused (f : ClassFault)

def Halt.fault : Halt → ClassFault
  | ended false => .unterminated
  | ended true => .unfinishedRange
  | refused f => f

def rangeEnd : List Char → Except Halt (Char × List Char)
  | [] => .error (.ended true)
  | c :: rest =>
    if c = ']' then .error (.refused .unfinishedRange)
    else if c = '\\' then
      match rest with
      | [] => .error (.ended true)
      | d :: rest => .ok (unescape d, rest)
    else .ok (c, rest)

def fromLiteral (first : Char) : List Char → Except Halt (Option ClassItem × List Char)
  | '-' :: rest =>
    match rangeEnd rest with
    | .error halt => .error halt
    | .ok (last, rest) =>
      if last < first then .error (.refused .rangeOrder) else .ok (some (.range first last), rest)
  | rest => .ok (some (.single first), rest)

def turn : List Char → Except Halt (Option ClassItem × List Char)
  | [] => .error (.ended false)
  | c :: rest =>
    if c = ']' then .ok (none, rest)
    else if c = '\\' then
      match rest with
      | [] => .error (.ended false)
      | d :: rest =>
        match (ClassAtom.escaped d).meaning with
        | .refused f => .error (.refused f)
        | .shorthand s => .ok (some (.shorthand s), rest)
        | .literal first => fromLiteral first rest
    else fromLiteral c rest

variable {cs rest : List Char} {i : ClassItem} {o : Option ClassItem} {a e : ClassAtom}
  {atoms : List ClassAtom}

theorem length_lt_of_rangeEnd {last : Char} (h : rangeEnd cs = .ok (last, rest)) :
    rest.length < cs.length := by
  unfold rangeEnd at h
  grind

theorem length_le_of_fromLiteral {first : Char} (h : fromLiteral first cs = .ok (o, rest)) :
    rest.length ≤ cs.length := by
  unfold fromLiteral at h
  split at h
  · next behind =>
    split at h
    · cases h
    · next hend =>
      have hlt := length_lt_of_rangeEnd hend
      grind
  · grind

theorem length_lt_of_turn (h : turn cs = .ok (o, rest)) : rest.length < cs.length := by
  have hitem {first : Char} {behind : List Char} (h : fromLiteral first behind = .ok (o, rest)) :
      rest.length < behind.length + 1 := Nat.lt_succ_of_le (length_le_of_fromLiteral h)
  unfold turn at h
  split at h
  · cases h
  split at h
  · cases h
    exact Nat.lt_succ_self _
  split at h
  · split at h
    · cases h
    split at h
    · cases h
    · cases h
      exact Nat.lt_succ_of_lt (Nat.lt_succ_self _)
    · exact Nat.lt_succ_of_lt (hitem h)
  · exact hitem h

/-- Turn by turn to the closing bracket; what lies behind it is left over. -/
def run (cs : List Char) : Except Halt (List ClassItem × List Char) :=
  match h : turn cs with
  | .error halt => .error halt
  | .ok (none, rest) => .ok ([], rest)
  | .ok (some i, rest) =>
    have := length_lt_of_turn h
    (run rest).map fun (items, rest) => (i :: items, rest)
termination_by cs.length

/-- A whole class and what is left over behind it. -/
def ofChars : List Char → Except Halt (List ClassItem × List Char)
  | '[' :: '^' :: _ => .error (.refused .negated)
  | '[' :: cs => run cs
  | _ => .error (.refused .noBracket)

theorem turn_plain {c : Char} (h : (ClassAtom.plain c).IsInside ']') :
    turn (c :: cs) = fromLiteral c cs := by
  rw [turn.eq_def]
  exact (if_neg h.1).trans (if_neg h.2)

theorem turn_refused {f : ClassFault} (h : a.meaning = .refused f) :
    turn (a.spelling ++ cs) = .error (.refused f) := by
  cases a with
  | plain c => cases h
  | escaped c => simp [ClassAtom.spelling, turn, h]

theorem turn_shorthand {s : Shorthand} (h : a.meaning = .shorthand s) :
    turn (a.spelling ++ cs) = .ok (some (.shorthand s), cs) := by
  cases a with
  | plain c => cases h
  | escaped c => simp [ClassAtom.spelling, turn, h]

theorem turn_literal {c : Char} (ha : a.IsInside ']') (h : a.meaning = .literal c) :
    turn (a.spelling ++ cs) = fromLiteral c cs := by
  cases a with
  | plain d =>
    cases h
    exact turn_plain ha
  | escaped d => simp [ClassAtom.spelling, turn, h]

theorem rangeEnd_spelling (he : e.IsInside ']') :
    rangeEnd (e.spelling ++ cs) = .ok (e.char, cs) := by
  cases e with
  | plain c => cases cs <;> simp [ClassAtom.spelling, ClassAtom.char, rangeEnd, he.1, he.2]
  | escaped c => rfl

theorem turn_single {c : Char} (ha : a.IsInside ']') (h : a.meaning = .literal c)
    (hdash : cs.head? ≠ some '-') : turn (a.spelling ++ cs) = .ok (some (.single c), cs) := by
  rw [turn_literal ha h, fromLiteral]
  rintro behind rfl
  exact hdash rfl

theorem turn_range {first : Char} (ha : a.IsInside ']') (h : a.meaning = .literal first)
    (he : e.IsInside ']') : turn (a.spelling ++ '-' :: (e.spelling ++ cs)) =
      if e.char < first then .error (.refused .rangeOrder)
      else .ok (some (.range first e.char), cs) := by
  rw [turn_literal ha h, fromLiteral, rangeEnd_spelling he]

theorem run_of_turn_error {halt : Halt} (h : turn cs = .error halt) : run cs = .error halt := by
  rw [run]
  split <;> simp_all

theorem run_of_turn (h : turn cs = .ok (some i, rest)) :
    run cs = (run rest).map fun (items, rest) => (i :: items, rest) := by
  rw [run]
  split <;> simp_all

inductive Ends : Bool → List Char → Prop
  | bracket {rest : List Char} : Ends true (']' :: rest)
  | nothing : Ends false []
  | backslash : Ends false ['\\']

def Halt.ofFault (closed : Bool) (f : ClassFault) : Halt :=
  match closed, f with
  | false, .unterminated => .ended false
  | false, .unfinishedRange => .ended true
  | _, f => .refused f

/-- The report of a pass over a body that is read as items or refused. -/
def report (closed : Bool) (rest : List Char) :
    Except ClassFault (List ClassItem) → Except Halt (List ClassItem × List Char)
  | .ok items => .ok (items, rest)
  | .error f => .error (.ofFault closed f)

variable {closed : Bool} {ending : List Char}

theorem fault_ofFault (f : ClassFault) : (Halt.ofFault closed f).fault = f := by
  cases closed <;> cases f <;> rfl

theorem ofFault_of_meaning {f : ClassFault} (h : a.meaning = .refused f) :
    Halt.ofFault closed f = .refused f := by
  cases a with
  | plain c => cases h
  | escaped c =>
    rcases ClassAtom.meaning_eq_refused.1 h with ⟨-, rfl⟩ | ⟨-, rfl⟩ <;> cases closed <;> rfl

theorem exists_ending (cs : List Char) :
    ∃ ending, cs = (ClassBody.read cs).spelling ++ ending ∧
      Ends (ClassBody.read cs).closed ending := by
  fun_induction ClassBody.read cs with
  | case1 => exact ⟨[], rfl, .nothing⟩
  | case2 => exact ⟨[']'], rfl, .bracket⟩
  | case3 => exact ⟨['\\'], rfl, .backslash⟩
  | case4 c => exact ⟨[], rfl, .nothing⟩
  | case5 d rest => exact ⟨']' :: d :: rest, rfl, .bracket⟩
  | case6 d rest _ ih =>
    obtain ⟨ending, hrest, hends⟩ := ih
    exact ⟨ending, congrArg ('\\' :: d :: ·) hrest, hends⟩
  | case7 c d rest _ _ ih =>
    obtain ⟨ending, hrest, hends⟩ := ih
    exact ⟨ending, congrArg (c :: ·) hrest, hends⟩

theorem head?_spelling_ne_dash (h : Ends closed ending) (hdash : atoms.head? ≠ some (.plain '-')) :
    (atoms.flatMap ClassAtom.spelling ++ ending).head? ≠ some '-' := by
  intro heq
  cases atoms with
  | nil => cases h <;> cases heq
  | cons a atoms =>
    cases a with
    | plain c =>
      cases heq
      exact hdash rfl
    | escaped c => cases heq

theorem spelling_range : (a :: .plain '-' :: e :: atoms).flatMap ClassAtom.spelling ++ ending =
    a.spelling ++ '-' :: (e.spelling ++ (atoms.flatMap ClassAtom.spelling ++ ending)) := by
  simp only [List.flatMap_cons, List.append_assoc]
  rfl

theorem run_ending (h : Ends closed ending) :
    run ending = report closed ending.tail (ClassItem.ofAtoms closed []) := by
  cases h <;> rw [run] <;> rfl

theorem fromLiteral_ending {first : Char} (h : Ends closed ending) :
    fromLiteral first ('-' :: ending) = .error (.ofFault closed .unfinishedRange) := by
  cases h <;> rfl

theorem run_spelling (hends : Ends closed ending) (hinside : ∀ a ∈ atoms, a.IsInside ']') :
    run (atoms.flatMap ClassAtom.spelling ++ ending) =
      report closed ending.tail (ClassItem.ofAtoms closed atoms) := by
  have step {i : ClassItem} {cs cs' : List Char} {x : Except ClassFault (List ClassItem)}
      (hturn : turn cs = .ok (some i, cs')) (hrest : run cs' = report closed ending.tail x) :
      run cs = report closed ending.tail (x.map (i :: ·)) := by
    rw [run_of_turn hturn, hrest]
    cases x <;> rfl
  -- the cases are those of reading atoms as items; each has its own turn
  fun_induction ClassItem.ofAtoms closed atoms with
  | case1 hclosed => exact (run_ending hends).trans (by rw [ClassItem.ofAtoms, if_pos hclosed])
  | case2 hopen => exact (run_ending hends).trans (by rw [ClassItem.ofAtoms, if_neg hopen])
  | case3 a rest f hmeaning =>
    rw [List.flatMap_cons, List.append_assoc, run_of_turn_error (turn_refused hmeaning)]
    exact congrArg Except.error (ofFault_of_meaning hmeaning).symm
  | case4 a rest s hmeaning ih =>
    rw [List.flatMap_cons, List.append_assoc]
    exact step (turn_shorthand hmeaning) (ih (List.forall_mem_cons.1 hinside).2)
  | case5 a first hmeaning =>
    obtain ⟨ha, -⟩ := List.forall_mem_cons.1 hinside
    have hturn : turn (a.spelling ++ '-' :: ending) =
        .error (.ofFault closed .unfinishedRange) :=
      (turn_literal ha hmeaning).trans (fromLiteral_ending hends)
    exact (congrArg run (List.append_assoc _ _ _)).trans (run_of_turn_error hturn)
  | case6 a first hmeaning e rest hlt =>
    simp only [List.forall_mem_cons] at hinside
    obtain ⟨ha, -, he, hrest⟩ := hinside
    rw [spelling_range, run_of_turn_error ((turn_range ha hmeaning he).trans (if_pos hlt))]
    cases closed <;> rfl
  | case7 a first hmeaning e rest hlt ih =>
    simp only [List.forall_mem_cons] at hinside
    obtain ⟨ha, -, he, hrest⟩ := hinside
    rw [spelling_range]
    exact step ((turn_range ha hmeaning he).trans (if_neg hlt)) (ih hrest)
  | case8 a first hmeaning rest hlast hmore ih =>
    obtain ⟨ha, hrest⟩ := List.forall_mem_cons.1 hinside
    rw [List.flatMap_cons, List.append_assoc]
    have hdash := head?_spelling_ne_dash hends (ClassItem.head?_ne_dash hlast hmore)
    exact step (turn_single ha hmeaning hdash) (ih hrest)

/-- The class that a pass has found, or why there is none. -/
def build (source : String) :
    Except Halt (List ClassItem × List Char) → Except ClassFault CharClass
  | .error halt => .error halt.fault
  | .ok (items, _) => if items.isEmpty then .error .empty else .ok ⟨source, CharClass.partsOf items⟩

theorem build_report (source : String) (x : Except ClassFault (List ClassItem)) :
    build source (report closed rest x) = x.bind fun items =>
      if items.isEmpty then .error .empty else .ok ⟨source, CharClass.partsOf items⟩ := by
  cases x with
  | error f => exact congrArg Except.error (fault_ofFault f)
  | ok items => rfl

theorem parse_eq_build (source : String) :
    CharClass.parse source = build source (ofChars source.toList) := by
  by_cases hbracket : ∃ cs, source.toList = '[' :: cs
  · obtain ⟨cs, hsource⟩ := hbracket
    rw [CharClass.parse_bracket hsource, hsource]
    split
    · next hsign =>
      obtain ⟨behind, rfl⟩ := List.head?_eq_some_iff.1 hsign
      rfl
    · next hsign =>
      have hpass : ofChars ('[' :: cs) = run cs := by
        rw [ofChars]
        rintro behind rfl
        exact hsign rfl
      obtain ⟨ending, hcs, hends⟩ := exists_ending cs
      have hinside : ∀ a ∈ (ClassBody.read cs).atoms, a.IsInside ']' :=
        fun _ => ClassBody.isInside_of_mem_read
      have hrun := run_spelling hends hinside
      rw [← ClassBody.spelling, ← hcs] at hrun
      rw [hpass, hrun, build_report]
  · have hnone : ofChars source.toList = .error (.refused .noBracket) := by
      rw [ofChars]
      · rintro behind heq
        exact hbracket ⟨_, heq⟩
      · rintro cs heq
        exact hbracket ⟨_, heq⟩
    rw [hnone, CharClass.parse]
    split
    · next heq => exact absurd ⟨_, heq⟩ hbracket
    · next heq => exact absurd ⟨_, heq⟩ hbracket
    · rfl

theorem fault_of_ofAtoms {f : ClassFault} (h : ClassItem.ofAtoms true atoms = .error f) :
    f ∈ [.unfinishedRange, .rangeOrder, .negatedShorthand, .unsupportedEscape] := by
  have behind {i : ClassItem} {x : Except ClassFault (List ClassItem)}
      (hx : x.map (i :: ·) = .error f) : x = .error f := by
    cases x with
    | error => exact hx
    | ok => cases hx
  fun_induction ClassItem.ofAtoms true atoms with
  | case1 => cases h
  | case2 hopen => exact absurd rfl hopen
  | case3 a _ _ hmeaning =>
    cases h
    cases a with
    | plain c => cases hmeaning
    | escaped c =>
      rcases ClassAtom.meaning_eq_refused.1 hmeaning with ⟨-, rfl⟩ | ⟨-, rfl⟩ <;> decide
  | case5 | case6 =>
    cases h
    decide
  | case4 _ _ _ _ ih | case7 _ _ _ _ _ _ ih | case8 _ _ _ _ _ _ ih => exact ih (behind h)

theorem ofChars_spelling (hinside : ∀ a ∈ atoms, a.IsInside ']') :
    ofChars ('[' :: (atoms.flatMap ClassAtom.spelling ++ [']'])) = .error (.refused .negated) ∨
      ofChars ('[' :: (atoms.flatMap ClassAtom.spelling ++ [']'])) =
        report true [] (ClassItem.ofAtoms true atoms) := by
  unfold ofChars
  split
  · exact .inl rfl
  · next heq =>
    obtain rfl := List.tail_eq_of_cons_eq heq
    exact .inr (run_spelling .bracket hinside)
  · next hnone => exact absurd rfl (hnone _)

/-- Where the scanner finds the end of a class, reading its text finds it too. No class token lacks
its first bracket or ends inside a class or a range; and if it is read, then to its last character,
the bracket, with nothing left behind. -/
theorem leaves_nothing {source text : String} {place : Position}
    (h : Lexer.Returns source ⟨.charClass text, place⟩) :
    CharClass.parse text = build text (ofChars text.toList) ∧
    CharClass.parse text ≠ .error .noBracket ∧ CharClass.parse text ≠ .error .unterminated ∧
    (∀ inRange, ofChars text.toList ≠ .error (.ended inRange)) ∧
    ∀ set, CharClass.parse text = .ok set → ∃ body items,
      text.toList = '[' :: (body ++ [']']) ∧ ofChars text.toList = .ok (items, []) := by
  obtain ⟨atoms, hinside, htext⟩ := h.isClassText
  rw [parse_eq_build, htext]
  rcases ofChars_spelling hinside with hsign | hpass
  · rw [hsign]
    exact ⟨rfl, nofun, nofun, nofun, nofun⟩
  · rw [hpass]
    cases hatoms : ClassItem.ofAtoms true atoms with
    | error f =>
      have hfault := fault_of_ofAtoms hatoms
      simp only [List.mem_cons, List.not_mem_nil, or_false] at hfault
      rcases hfault with rfl | rfl | rfl | rfl <;> exact ⟨rfl, nofun, nofun, nofun, nofun⟩
    | ok items =>
      cases items with
      | nil => exact ⟨rfl, nofun, nofun, nofun, nofun⟩
      | cons i items => exact ⟨rfl, nofun, nofun, nofun, fun _ _ => ⟨_, _, rfl, rfl⟩⟩

/-- Brackets and backslashes start and end ranges here, and a dash stands before the bracket. -/
theorem leaves_nothing_escaped :
    Lexer.Returns "A ::= [\\]-\\^\\\\-~\\s-]+" ⟨.charClass "[\\]-\\^\\\\-~\\s-]", ⟨6, 0, 6⟩⟩ ∧
    ∃ set, CharClass.parse "[\\]-\\^\\\\-~\\s-]" = .ok set ∧
      ∃ items, ofChars "[\\]-\\^\\\\-~\\s-]".toList = .ok (items, []) := by
  have h : Lexer.Returns "A ::= [\\]-\\^\\\\-~\\s-]+"
      ⟨.charClass "[\\]-\\^\\\\-~\\s-]", ⟨6, 0, 6⟩⟩ :=
    ⟨_, .hasNext (.next (.next .start)), .inr rfl⟩
  obtain ⟨set, hset⟩ : ∃ set, CharClass.parse "[\\]-\\^\\\\-~\\s-]" = .ok set := ⟨_, rfl⟩
  obtain ⟨-, items, -, hpass⟩ := (leaves_nothing h).2.2.2.2 set hset
  exact ⟨h, set, hset, items, hpass⟩

end ClassPass

end Ebnf
