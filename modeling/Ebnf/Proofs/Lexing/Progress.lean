import Ebnf.Proofs.Lexing

/-! Progress in reading tokens. Whatever stands at a cursor, reading a token ends in an error, tells
the end and stands there, or uses up some of the text. Trivia is skipped in turns that each use up
some text too; and of the characters that start no trivia every one starts a token, for a reserved
one is a mark, a quote or a bracket, and any other may stand in an unquoted string. -/

namespace Ebnf

namespace Cursor

variable {c : Cursor} {m n : Nat}

theorem advance_advance (c : Cursor) (m n : Nat) : (c.advance m).advance n = c.advance (m + n) := by
  have htake : c.ahead.take (m + n) = c.ahead.take m ++ (c.ahead.drop m).take n := List.take_add
  simp only [advance, htake, List.drop_drop, Position.along_append, List.reverseAux_eq,
    List.reverse_append, List.append_assoc]

theorem advance_of_ahead_nil (hc : c.ahead = []) (n : Nat) : c.advance n = c := by
  obtain ⟨back, ahead, position⟩ := c
  obtain rfl : ahead = [] := hc
  rw [advance, List.take_nil, List.drop_nil]
  rfl

theorem length_ahead_advance_lt (hn : 0 < n) (hc : c.ahead ≠ []) :
    (c.advance n).ahead.length < c.ahead.length := by
  have hpos := List.length_pos_iff.2 hc
  have hlength : (c.advance n).ahead.length = c.ahead.length - n := List.length_drop
  omega

theorem length_ahead_advance_le (c : Cursor) (n : Nat) :
    (c.advance n).ahead.length ≤ c.ahead.length := by
  have hlength : (c.advance n).ahead.length = c.ahead.length - n := List.length_drop
  omega

theorem index_lt_advance (hn : 0 < n) (hc : c.ahead ≠ []) : c.index < (c.advance n).index := by
  obtain ⟨k, rfl⟩ := Nat.exists_eq_succ_of_ne_zero (Nat.pos_iff_ne_zero.1 hn)
  obtain ⟨ch, rest, hahead⟩ := List.exists_cons_of_ne_nil hc
  have hindex : (c.advance (k + 1)).index = c.index + byteCount (c.ahead.take (k + 1)) :=
    Position.index_along ..
  rw [hindex, hahead, List.take_succ_cons, byteCount]
  exact Nat.lt_add_of_pos_right (Nat.add_pos_left (Char.utf8Size_pos ch) _)

end Cursor

/-- What a place in trivia is when the text starts some characters before. -/
def TriviaPlace.later (k : Nat) : TriviaPlace → TriviaPlace
  | between => between
  | inLine => inLine
  | inBlock opened => inBlock (opened + k)

theorem triviaEnd_later (k n : Nat) (place : TriviaPlace) (cs : List Char) :
    triviaEnd (n + k) (place.later k) cs =
      match triviaEnd n place cs with
      | .ok m => .ok (m + k)
      | .error opened => .error (opened + k) := by
  fun_induction triviaEnd n place cs with
  | case1 n rest ih | case2 n rest ih | case5 n rest ih | case7 n opened rest ih =>
    rw [TriviaPlace.later, triviaEnd, Nat.add_right_comm]
    exact ih
  | case3 n c rest _ _ hspace ih =>
    rw [TriviaPlace.later, triviaEnd_space hspace, Nat.add_right_comm]
    exact ih
  | case4 n c rest hline hblock hspace =>
    rw [TriviaPlace.later, triviaEnd, if_neg hspace]
    · exact hline
    · exact hblock
  | case6 n c rest hbreak ih =>
    rw [TriviaPlace.later, triviaEnd, Nat.add_right_comm]
    · exact ih
    · exact hbreak
  | case8 n opened c rest hmark ih =>
    rw [TriviaPlace.later, triviaEnd, Nat.add_right_comm]
    · exact ih
    · exact hmark
  | case9 => rfl
  | case10 n place hplace =>
    cases place with
    | between | inLine => rfl
    | inBlock opened => exact absurd rfl (hplace opened)

theorem triviaEnd_spaces {cs : List Char} (h : ∀ c ∈ cs, isWhiteSpace c = true) (n : Nat)
    (rest : List Char) :
    triviaEnd n .between (cs ++ rest) = triviaEnd (n + cs.length) .between rest := by
  induction cs generalizing n with
  | nil => rfl
  | cons c cs ih =>
    obtain ⟨hc, hcs⟩ := List.forall_mem_cons.1 h
    rw [List.cons_append, triviaEnd_space hc, ih hcs, List.length_cons]
    congr 1
    omega

theorem triviaEnd_inLine (n : Nat) (cs : List Char) : triviaEnd n .inLine cs =
    match Cursor.distancePast ['\n'] cs with
    | some m => triviaEnd (n + m) .between (cs.drop m)
    | none => .ok (n + cs.length) := by
  induction cs generalizing n with
  | nil => rfl
  | cons c cs ih =>
    by_cases hc : c = '\n'
    · subst hc
      rfl
    · have hpast : Cursor.distancePast ['\n'] (c :: cs) =
          (Cursor.distancePast ['\n'] cs).map (· + 1) := by
        rw [Cursor.distancePast, if_neg]
        simpa using Ne.symm hc
      have hstep : triviaEnd n .inLine (c :: cs) = triviaEnd (n + 1) .inLine cs := by
        rw [triviaEnd]
        exact hc
      rw [hstep, ih, hpast]
      cases Cursor.distancePast ['\n'] cs with
      | none => exact congrArg Except.ok (Nat.add_right_comm n 1 cs.length)
      | some m =>
        simp only [Option.map_some, List.drop_succ_cons]
        rw [Nat.add_right_comm, Nat.add_assoc]

theorem triviaEnd_inBlock (n opened : Nat) (cs : List Char) : triviaEnd n (.inBlock opened) cs =
    match Cursor.distancePast ['*', '/'] cs with
    | some m => triviaEnd (n + m) .between (cs.drop m)
    | none => .error opened := by
  induction cs generalizing n with
  | nil => rfl
  | cons c cs ih =>
    by_cases hmark : ['*', '/'] <+: c :: cs
    · obtain ⟨rest, hrest⟩ := hmark
      rw [← hrest]
      rfl
    · have hpast : Cursor.distancePast ['*', '/'] (c :: cs) =
          (Cursor.distancePast ['*', '/'] cs).map (· + 1) := by
        rw [Cursor.distancePast, if_neg (by rwa [List.isPrefixOf_iff_prefix])]
      have hstep : triviaEnd n (.inBlock opened) (c :: cs) =
          triviaEnd (n + 1) (.inBlock opened) cs := by
        rw [triviaEnd]
        rintro rest rfl rfl
        exact hmark ⟨rest, rfl⟩
      rw [hstep, ih, hpast]
      cases Cursor.distancePast ['*', '/'] cs with
      | none => rfl
      | some m =>
        simp only [Option.map_some, List.drop_succ_cons]
        rw [Nat.add_right_comm, Nat.add_assoc]

namespace Cursor

/-- Trivia skipped in turns: white space, and a comment if one is opened behind it. Without an
answer there have been too many turns. -/
def skipTurns : (fuel : Nat) → Cursor → Option (Except GrammarError Unit × Cursor)
  | 0, _ => none
  | fuel + 1, c =>
    let c := c.jumpWhile isWhiteSpace
    match c.consume ['/', '/'] with
    | some d => skipTurns fuel (d.jumpPast ['\n']).2
    | none =>
      match c.consume ['/', '*'] with
      | some d =>
        match d.jumpPast ['*', '/'] with
        | (true, d) => skipTurns fuel d
        | (false, d) => some (.error (.lex c.position .openComment), d)
      | none => some (.ok (), c)

variable {c d : Cursor} {n : Nat}

theorem toEnd_advance (c : Cursor) (n : Nat) : (c.advance n).toEnd = c.toEnd := by
  have hahead : (c.advance n).ahead = c.ahead.drop n := rfl
  rw [toEnd, toEnd, advance_advance, hahead, List.length_drop]
  rcases Nat.le_total n c.ahead.length with hle | hle
  · rw [Nat.add_sub_cancel' hle]
  · have htake : c.ahead.take (n + (c.ahead.length - n)) = c.ahead.take c.ahead.length := by
      rw [List.take_length, List.take_of_length_le (by omega)]
    have hdrop : c.ahead.drop (n + (c.ahead.length - n)) = c.ahead.drop c.ahead.length := by
      rw [List.drop_length, List.drop_of_length_le (by omega)]
    rw [advance, advance, htake, hdrop]

theorem skipTrivia_advance (h : triviaLength c.ahead = triviaEnd n .between (c.ahead.drop n)) :
    c.skipTrivia = (c.advance n).skipTrivia := by
  have hahead : (c.advance n).ahead = c.ahead.drop n := rfl
  have hlater := triviaEnd_later n 0 .between (c.ahead.drop n)
  rw [Nat.zero_add, TriviaPlace.later, ← h] at hlater
  rw [skipTrivia, skipTrivia, hlater, hahead, triviaLength]
  rcases triviaEnd 0 .between (c.ahead.drop n) with opened | m
  · dsimp only
    rw [toEnd_advance, advance_advance, Nat.add_comm]
  · dsimp only
    rw [advance_advance, Nat.add_comm]

theorem drop_takeWhile (p : Char → Bool) (cs : List Char) :
    cs.drop (cs.takeWhile p).length = cs.dropWhile p := by
  calc
    cs.drop (cs.takeWhile p).length =
        (cs.takeWhile p ++ cs.dropWhile p).drop (cs.takeWhile p).length := by
      rw [List.takeWhile_append_dropWhile]
    _ = cs.dropWhile p := List.drop_left

theorem skipTrivia_jumpWhile (c : Cursor) :
    c.skipTrivia = (c.jumpWhile isWhiteSpace).skipTrivia := by
  apply skipTrivia_advance
  have hwhite : ∀ ch ∈ c.ahead.takeWhile isWhiteSpace, isWhiteSpace ch = true :=
    fun _ => List.mem_takeWhile_imp
  have hspaces := triviaEnd_spaces hwhite 0 (c.ahead.dropWhile isWhiteSpace)
  rw [List.takeWhile_append_dropWhile, Nat.zero_add] at hspaces
  rw [triviaLength, hspaces, drop_takeWhile]

theorem current_jumpWhile (p : Char → Bool) : Stops p (c.jumpWhile p).current := by
  have hdrop : (c.jumpWhile p).ahead = c.ahead.dropWhile p := drop_takeWhile p c.ahead
  rw [current, hdrop]
  exact stops_dropWhile

theorem exists_of_consume {cs : List Char} (h : c.consume cs = some d) :
    ∃ rest, c.ahead = cs ++ rest ∧ d = c.advance cs.length ∧ d.ahead = rest := by
  rw [consume] at h
  split at h
  · next hat =>
    obtain ⟨rest, hrest⟩ := List.isPrefixOf_iff_prefix.1 hat
    obtain rfl := Option.some.inj h
    refine ⟨rest, hrest.symm, rfl, ?_⟩
    rw [advance, ← hrest, List.drop_left]
  · cases h

theorem skipTrivia_stop (h : ¬ StartsTrivia c.ahead) : c.skipTrivia = (.ok (), c) := by
  rw [skipTrivia, triviaLength, triviaEnd_stop h]
  rfl

theorem skipTrivia_toEnd (c : Cursor) : c.toEnd.skipTrivia = (.ok (), c.toEnd) := by
  apply skipTrivia_stop
  have hahead : c.toEnd.ahead = [] := List.drop_length
  rw [hahead]
  exact id

theorem skipTrivia_line (h : c.consume ['/', '/'] = some d) :
    c.skipTrivia = (d.jumpPast ['\n']).2.skipTrivia := by
  obtain ⟨rest, hahead, rfl, hrest⟩ := exists_of_consume h
  have hread : triviaLength c.ahead = triviaEnd 2 .inLine rest := by
    rw [hahead]
    rfl
  rw [triviaEnd_inLine] at hread
  rw [jumpPast, hrest]
  cases hpast : distancePast ['\n'] rest with
  | some m =>
    rw [hpast] at hread
    dsimp only
    rw [advance_advance]
    apply skipTrivia_advance
    rw [hread, hahead, ← List.drop_drop]
    rfl
  | none =>
    rw [hpast, Nat.add_comm] at hread
    dsimp only
    rw [skipTrivia_toEnd, toEnd_advance, skipTrivia, hread, toEnd, hahead]
    rfl

theorem skipTrivia_block (h : c.consume ['/', '*'] = some d) :
    c.skipTrivia = match d.jumpPast ['*', '/'] with
      | (true, d) => d.skipTrivia
      | (false, d) => (.error (.lex c.position .openComment), d) := by
  obtain ⟨rest, hahead, rfl, hrest⟩ := exists_of_consume h
  have hread : triviaLength c.ahead = triviaEnd 2 (.inBlock 0) rest := by
    rw [hahead]
    rfl
  rw [triviaEnd_inBlock] at hread
  rw [jumpPast, hrest]
  cases hpast : distancePast ['*', '/'] rest with
  | some m =>
    rw [hpast] at hread
    dsimp only
    rw [advance_advance]
    apply skipTrivia_advance
    rw [hread, hahead, ← List.drop_drop]
    rfl
  | none =>
    rw [hpast] at hread
    dsimp only
    rw [toEnd_advance, skipTrivia, hread]
    rfl

theorem not_startsTrivia_of_consume (hspace : Stops isWhiteSpace c.current)
    (hline : c.consume ['/', '/'] = none) (hblock : c.consume ['/', '*'] = none) :
    ¬ StartsTrivia c.ahead := by
  have none_at : ∀ {mark rest : List Char}, c.consume mark = none → c.ahead ≠ mark ++ rest := by
    intro mark rest hnone hahead
    rw [consume, isAt, hahead,
      if_pos (List.isPrefixOf_iff_prefix.2 (List.prefix_append ..))] at hnone
    cases hnone
  rw [current] at hspace
  intro hstarts
  generalize hahead : c.ahead = text at hspace hstarts
  fun_cases StartsTrivia text with
  | case1 d rest =>
    rcases hstarts with rfl | rfl
    · exact none_at hline hahead
    · exact none_at hblock hahead
  | case2 ch rest hslash =>
    rw [StartsTrivia.eq_2 _ _ hslash, hspace ch rfl] at hstarts
    cases hstarts
  | case3 => exact hstarts

theorem length_ahead_jumpPast_le (c : Cursor) (delimiter : List Char) :
    (c.jumpPast delimiter).2.ahead.length ≤ c.ahead.length := by
  rw [jumpPast]
  split
  · exact length_ahead_advance_le c _
  · exact length_ahead_advance_le c _

theorem skipTurns_eq {fuel : Nat} (hfuel : c.ahead.length < fuel) :
    skipTurns fuel c = some c.skipTrivia := by
  induction fuel generalizing c with
  | zero => exact absurd hfuel (Nat.not_lt_zero _)
  | succ fuel ih =>
    rw [skipTurns, skipTrivia_jumpWhile]
    have hspace := current_jumpWhile (c := c) isWhiteSpace
    have hle : (c.jumpWhile isWhiteSpace).ahead.length ≤ c.ahead.length :=
      length_ahead_advance_le c _
    generalize c.jumpWhile isWhiteSpace = c at hspace hle ⊢
    have behind : ∀ {mark : List Char} {d : Cursor} (delimiter : List Char), mark ≠ [] →
        c.consume mark = some d → (d.jumpPast delimiter).2.ahead.length < fuel := by
      intro mark d delimiter hmark hd
      obtain ⟨rest, hahead, rfl, -⟩ := exists_of_consume hd
      have hless := length_ahead_advance_lt (List.length_pos_iff.2 hmark)
        (c := c) (by simp [hahead, hmark])
      have hjump := length_ahead_jumpPast_le (c.advance mark.length) delimiter
      omega
    cases hline : c.consume ['/', '/'] with
    | some d =>
      dsimp only
      rw [skipTrivia_line hline]
      exact ih (behind ['\n'] (List.cons_ne_nil _ _) hline)
    | none =>
      cases hblock : c.consume ['/', '*'] with
      | some d =>
        have hless := behind ['*', '/'] (List.cons_ne_nil _ _) hblock
        rw [skipTrivia_block hblock]
        dsimp only
        rcases hjump : d.jumpPast ['*', '/'] with ⟨- | -, e⟩
        · rfl
        · rw [hjump] at hless
          exact ih hless
      | none => rw [skipTrivia_stop (not_startsTrivia_of_consume hspace hline hblock)]

end Cursor

namespace Scan

/-- A label that is missing is the only fault behind a mark that takes one. -/
theorem labelled_ne_unexpectedCharacter {build : Option String → Lexeme} {length offset n : Nat}
    {cs : List Char} : labelled build length cs ≠ .fault .unexpectedCharacter offset n := by
  unfold labelled
  split
  · dsimp only
    split <;> (intro h; cases h)
  · intro h
    cases h

theorem ofText_ne_of_isReserved {c : Char} {rest : List Char} (h : isReserved c = true)
    (offset n : Nat) : ofText (c :: rest) ≠ .fault .unexpectedCharacter offset n := by
  have quote : ∀ {c : Char}, c = '"' ∨ c = '\'' →
      ofText (c :: rest) ≠ .fault .unexpectedCharacter offset n := by
    intro c hc
    rw [ofText_quote hc]
    split <;> (intro h; cases h)
  simp only [isReserved, List.contains_eq_mem, List.mem_cons, List.not_mem_nil, or_false,
    decide_eq_true_eq] at h
  rcases h with rfl | rfl | rfl | rfl | rfl | rfl | rfl | rfl | rfl | rfl | rfl | rfl | rfl
  case inr.inr.inr.inr.inl =>
    rw [ofText]
    split
    · intro h
      cases h
    · exact labelled_ne_unexpectedCharacter
  case inr.inr.inr.inr.inr.inl =>
    rw [ofText]
    split <;> (intro h; cases h)
  case inr.inr.inr.inr.inr.inr.inl => exact quote (.inl rfl)
  case inr.inr.inr.inr.inr.inr.inr.inl => exact quote (.inr rfl)
  all_goals first | exact labelled_ne_unexpectedCharacter | (intro h; cases h)

theorem ofText_ne_unexpectedCharacter {text : List Char} (hstop : ¬ StartsTrivia text)
    (offset n : Nat) : ofText text ≠ .fault .unexpectedCharacter offset n := by
  cases text with
  | nil =>
    intro h
    cases h
  | cons c rest =>
    by_cases hdefine : [':', ':', '='] <+: c :: rest
    · obtain ⟨behind, heq⟩ := hdefine
      rw [← heq]
      intro h
      cases h
    by_cases hreserved : isReserved c = true
    · exact ofText_ne_of_isReserved hreserved offset n
    · have hspace : isWhiteSpace c = false :=
        Bool.eq_false_iff.2 fun hspace => hstop (startsTrivia_of_isWhiteSpace hspace)
      have hfree : isFree c = true := by
        rw [isFree, hspace, Bool.eq_false_iff.2 hreserved]
        rfl
      rw [ofText_other (Bool.eq_false_iff.2 hreserved) hdefine, List.takeWhile_cons_of_pos hfree]
      split <;> (intro h; cases h)

end Scan

namespace Cursor

variable {c d : Cursor} {token : Token}

theorem not_startsTrivia_of_skipTrivia (h : c.skipTrivia = (.ok (), d)) :
    ¬ StartsTrivia d.ahead := by
  rw [skipTrivia] at h
  split at h
  · next n htrivia =>
    obtain ⟨trivia, rest, hahead, rfl, -, hstop⟩ := triviaLength_eq_ok.1 htrivia
    obtain ⟨-, rfl⟩ := Prod.mk.inj h
    rwa [advance, hahead, List.drop_left]
  · cases h

theorem exists_advance_of_skipTrivia (h : c.skipTrivia = (.ok (), d)) :
    ∃ n, d = c.advance n := by
  rw [skipTrivia] at h
  split at h
  · obtain ⟨-, rfl⟩ := Prod.mk.inj h
    exact ⟨_, rfl⟩
  · cases h

theorem readToken_ne_unexpectedCharacter (c : Cursor) (place : Position) :
    c.readToken.1 ≠ .error (.lex place .unexpectedCharacter) := by
  have trivia : ∀ {c d : Cursor} {e : GrammarError}, c.skipTrivia = (.error e, d) →
      e ≠ .lex place .unexpectedCharacter := by
    intro c d e h
    rw [skipTrivia] at h
    split at h
    · cases h
    · obtain ⟨he, -⟩ := Prod.mk.inj h
      obtain rfl := Except.error.inj he
      intro h
      cases h
  rw [readToken]
  rcases hlead : c.skipTrivia with ⟨e | _, c₁⟩
  · exact fun h => trivia hlead (Except.error.inj h)
  dsimp only
  rcases hlexeme : c₁.readLexeme with ⟨e | token, c₂⟩
  · rw [readLexeme] at hlexeme
    split at hlexeme
    · cases hlexeme
    · next f offset n hscan =>
      obtain ⟨he, -⟩ := Prod.mk.inj hlexeme
      obtain rfl := Except.error.inj he
      intro h
      obtain ⟨-, rfl⟩ := GrammarError.lex.inj (Except.error.inj h)
      exact Scan.ofText_ne_unexpectedCharacter (not_startsTrivia_of_skipTrivia hlead) _ _ hscan
  dsimp only
  rcases htrivia : c₂.skipTrivia with ⟨e | _, c₃⟩
  · exact fun h => trivia htrivia (Except.error.inj h)
  · intro h
    cases h

theorem readToken_of_ahead_nil (hc : c.ahead = []) :
    c.readToken = (.ok ⟨.finish, c.position⟩, c) := by
  have hskip : c.skipTrivia = (.ok (), c) := by
    apply skipTrivia_stop
    rw [hc]
    exact id
  refine readToken_eq_ok.2 ⟨c, c, hskip, ?_, hskip⟩
  rw [readLexeme, hc, Scan.ofText]
  exact congrArg (Prod.mk _) (advance_of_ahead_nil hc 0)

/-- A token is read: either the end is told and stood at, or some of the text is used up. -/
theorem readToken_cases (c : Cursor) : (∃ e, c.readToken.1 = .error e) ∨
    (∃ d, c.readToken = (.ok ⟨.finish, d.position⟩, d) ∧ d.ahead = []) ∨
    ∃ token d, c.readToken = (.ok token, d) ∧ token.lexeme ≠ .finish ∧ c.index < d.index ∧
      d.ahead.length < c.ahead.length := by
  rcases hread : c.readToken with ⟨e | token, d⟩
  · exact .inl ⟨e, rfl⟩
  refine .inr ?_
  obtain ⟨c₁, c₂, hlead, hlexeme, htrivia⟩ := readToken_eq_ok.1 hread
  have hstop := not_startsTrivia_of_skipTrivia hlead
  obtain ⟨m, rfl⟩ := exists_advance_of_skipTrivia hlead
  obtain ⟨k, rfl⟩ := exists_advance_of_skipTrivia htrivia
  rw [readLexeme] at hlexeme
  split at hlexeme
  · next l n hscan =>
    obtain ⟨htoken, rfl⟩ := Prod.mk.inj hlexeme
    obtain rfl := Except.ok.inj htoken
    rw [advance_advance, advance_advance]
    by_cases hend : (c.advance m).ahead = []
    · rw [hend, Scan.ofText, Scan.lexeme.injEq] at hscan
      obtain ⟨rfl, rfl⟩ := hscan
      have hahead : (c.advance (m + (0 + k))).ahead = [] := by
        rw [← advance_advance, advance_of_ahead_nil hend]
        exact hend
      refine .inl ⟨_, ?_, hahead⟩
      rw [← advance_advance c m, advance_of_ahead_nil hend]
    · obtain ⟨cs, rest, -, rfl, hspelled⟩ := Scan.finds_ofText hscan hend hstop
      have hpos := List.length_pos_iff.2 hspelled.ne_nil
      have hsome : c.ahead ≠ [] := by
        intro hnil
        rw [advance, hnil, List.drop_nil] at hend
        exact hend rfl
      refine .inr ⟨_, _, rfl, hspelled.ne_finish, index_lt_advance (by omega) hsome,
        length_ahead_advance_lt (by omega) hsome⟩
  · cases hlexeme

end Cursor

end Ebnf
