import Ebnf.Proofs.Attempts
import Ebnf.Proofs.Offsets

/-! Matching that moves a cursor in place. Rows of occurrences and references move the cursor of
their caller, groups and alternatives and look-aheads move copies of it. Nothing but a move itself
undoes it, and still a move that fails leaves the cursor where it was. So attempts with cursors that
are values answer the same, and they leave the same session. -/

namespace Ebnf

/-- Whether a move matched, with the cursor and the session that it leaves. -/
structure Moved where
  matched : Bool
  cursor : Cursor
  session : Session

/-- The place after the match, if there is one, and the session then. -/
def Moved.answer (m : Moved) : Option Cursor × Session :=
  (if m.matched then some m.cursor else none, m.session)

abbrev Move := Cursor → Session → Option Moved

namespace Move

def inTurn (move : NodeId → Move) : List NodeId → Move
  | [], c, s => some ⟨true, c, s⟩
  | id :: ids, c, s =>
    match move id c s with
    | some ⟨true, d, s⟩ => inTurn move ids d s
    | ended => ended

def firstOf (move : NodeId → Move) : List NodeId → Move
  | [], c, s => some ⟨false, c, s⟩
  | id :: ids, c, s =>
    match move id c s with
    | some ⟨false, _, s⟩ => if s.isCommitted then some ⟨false, c, s⟩ else firstOf move ids c s
    | ended => ended

def settle (r : Repetition) (start : Cursor) (count : Nat) (c : Cursor) (s : Session) : Moved :=
  if r.min ≤ count then ⟨true, c, s⟩ else ⟨false, start, s⟩

def occurrences (move : Move) (r : Repetition) (start : Cursor) :
    (fuel : Nat) → (count : Nat) → Move
  | 0, _, _, _ => none
  | fuel + 1, count, c, s =>
    if r.hasRoom count then
      match move c s with
      | none => none
      | some ⟨false, d, s⟩ => some (settle r start count d s)
      | some ⟨true, d, s⟩ =>
        if d.index = c.index then some (settle r start (max (count + 1) r.min) d s)
        else occurrences move r start fuel (count + 1) d s
    else some (settle r start count c s)

def repeated (move : Move) (r : Repetition) (fuel : Nat) : Move := fun c s =>
  occurrences move r c fuel 0 c s

def lookAhead (positive : Bool) (move : Move) (id : NodeId) : Move := fun c s =>
  match move c s with
  | none => none
  | some ⟨matched, probe, s⟩ =>
    if matched = positive then some ⟨true, c, s⟩
    else if positive then some ⟨false, c, s.failOn id c.position .inherited⟩
    else some ⟨false, c, s.fail (some id) c.position (.operandMatched (probe.sliceFrom c.index))⟩

def occurrence (once repeated : NodeId → Move) (id : NodeId) : NodeKind → Move
  | .terminal literal, c, s =>
    match c.consume literal.toList with
    | some d => some ⟨true, d, s⟩
    | none =>
      some ⟨false, c, s.fail (some id) c.position (.ofFound (c.peek literal.toList.length))⟩
  | .charClass set, c, s =>
    match c.next with
    | some (ch, d) =>
      if set.contains ch then some ⟨true, d, s⟩
      else some ⟨false, c, s.fail (some id) c.position (.found [ch])⟩
    | none => some ⟨false, c, s.fail (some id) c.position .endOfInput⟩
  | .reference _ (some target), c, s => once target c s
  | .reference rule none, c, s => some ⟨false, c, s.fail (some id) c.position (.unlinked rule)⟩
  | .group children, c, s | .rule _ children, c, s =>
    -- a copy goes over the children
    match inTurn repeated children c s with
    | some ⟨false, _, s⟩ => some ⟨false, c, s.failOn id c.position .inherited⟩
    | ended => ended
  | .choice options _ _, c, s =>
    match firstOf repeated options c { s with cuts := false :: s.cuts } with
    | none => none
    | some ⟨matched, d, s⟩ =>
      let committed := s.isCommitted
      let s := { s with cuts := s.cuts.tail }
      if matched then some ⟨true, d, s⟩
      else some ⟨false, d, s.failOn id c.position (if committed then .committed else .inherited)⟩
  | .lookAhead positive (some operand), c, s => lookAhead positive (repeated operand) id c s
  | .lookAhead _ none, c, s => some ⟨true, c, s⟩
  | .cut, c, s => some ⟨true, c, s.cut⟩

end Move

namespace Graph

def moveOnce (g : Graph) : (fuel : Nat) → NodeId → Move
  | 0, _, _, _ => none
  | fuel + 1, id, c, s =>
    let once := g.moveOnce fuel
    let repeated := fun child => Move.repeated (once child) (g.node child).repetition fuel
    match Move.occurrence once repeated id (g.node id).kind c (s.enter id c.position) with
    | none => none
    | some ⟨matched, d, s⟩ => some ⟨matched, d, s.leave id matched⟩

/-- Moves a cursor over a node with all its repetitions. -/
def moveNode (g : Graph) (fuel : Nat) (id : NodeId) : Move :=
  Move.repeated (g.moveOnce fuel id) (g.node id).repetition fuel

end Graph

namespace Move

structure Makes (move : Move) (attempt : Attempt) : Prop where
  answer (c : Cursor) (s : Session) : (move c s).map Moved.answer = attempt c s
  rewinds {c d : Cursor} {s t : Session} : move c s = some ⟨false, d, t⟩ → d = c

variable {move : NodeId → Move} {attempt : NodeId → Attempt}

theorem answer_inTurn (h : ∀ id, (move id).Makes (attempt id)) (ids : List NodeId) (c : Cursor)
    (s : Session) : (inTurn move ids c s).map Moved.answer = Attempt.inTurn attempt ids c s := by
  induction ids generalizing c s with
  | nil => rfl
  | cons id ids ih =>
    rw [inTurn, Attempt.inTurn, ← (h id).answer c s]
    rcases move id c s with - | ⟨- | -, d, t⟩
    · rfl
    · rfl
    · exact ih d t

theorem makes_firstOf (h : ∀ id, (move id).Makes (attempt id)) (ids : List NodeId) :
    (firstOf move ids).Makes (Attempt.firstOf attempt ids) where
  answer c s := by
    induction ids generalizing s with
    | nil => rfl
    | cons id ids ih =>
      rw [firstOf, Attempt.firstOf, ← (h id).answer c s]
      rcases move id c s with - | ⟨- | -, d, t⟩
      · rfl
      · simp only [Option.map_some, Moved.answer, Bool.false_eq_true, if_false]
        split
        · rfl
        · exact ih t
      · rfl
  rewinds {c d s t} hans := by
    induction ids generalizing s with
    | nil =>
      cases hans
      rfl
    | cons id ids ih =>
      rw [firstOf] at hans
      rcases hid : move id c s with - | ⟨- | -, e, u⟩ <;> rw [hid] at hans
      · cases hans
      · dsimp only at hans
        split at hans
        · cases hans
          rfl
        · exact ih hans
      · cases hans

theorem answer_settle (r : Repetition) (start : Cursor) (count : Nat) (c : Cursor) (s : Session) :
    (settle r start count c s).answer = Attempt.settle r count c s := by
  unfold settle Attempt.settle
  split <;> rfl

theorem rewinds_settle {r : Repetition} {start c d : Cursor} {count : Nat} {s t : Session}
    (h : settle r start count c s = ⟨false, d, t⟩) : d = start := by
  unfold settle at h
  split at h
  · cases h
  · cases h
    rfl

section

variable {move : Move} {attempt : Attempt} {r : Repetition}

theorem answer_occurrences (h : move.Makes attempt) (start : Cursor) (fuel count : Nat) (c : Cursor)
    (s : Session) : (occurrences move r start fuel count c s).map Moved.answer =
      Attempt.repeated attempt r fuel count c s := by
  induction fuel generalizing count c s with
  | zero => rfl
  | succ fuel ih =>
    rw [occurrences, Attempt.repeated, ← h.answer c s]
    split
    · rcases hmove : move c s with - | ⟨- | -, d, t⟩
      · rfl
      · obtain rfl := h.rewinds hmove
        exact congrArg some (answer_settle r start count d t)
      · simp only [Option.map_some, Moved.answer, if_true]
        split
        · exact congrArg some (answer_settle r start _ d t)
        · exact ih (count + 1) d t
    · exact congrArg some (answer_settle r start count c s)

theorem rewinds_occurrences {start c d : Cursor} {fuel count : Nat} {s t : Session}
    (h : occurrences move r start fuel count c s = some ⟨false, d, t⟩) : d = start := by
  induction fuel generalizing count c s with
  | zero => cases h
  | succ fuel ih =>
    rw [occurrences] at h
    split at h
    · rcases hmove : move c s with - | ⟨- | -, e, u⟩ <;> rw [hmove] at h
      · cases h
      · exact rewinds_settle (Option.some.inj h)
      · dsimp only at h
        split at h
        · exact rewinds_settle (Option.some.inj h)
        · exact ih h
    · exact rewinds_settle (Option.some.inj h)

theorem makes_repeated (h : move.Makes attempt) (r : Repetition) (fuel : Nat) :
    (repeated move r fuel).Makes (Attempt.repeated attempt r fuel 0) where
  answer c s := answer_occurrences h c fuel 0 c s
  rewinds := rewinds_occurrences

theorem makes_lookAhead (h : move.Makes attempt) (positive : Bool) (id : NodeId) :
    (lookAhead positive move id).Makes (Attempt.lookAhead positive attempt id) where
  answer c s := by
    rw [lookAhead, Attempt.lookAhead, ← h.answer c s]
    rcases move c s with - | ⟨- | -, d, t⟩
    · rfl
    · cases positive <;> rfl
    · cases positive <;> rfl
  rewinds {c d s t} hans := by
    rw [lookAhead] at hans
    rcases hmove : move c s with - | ⟨matched, e, u⟩ <;> rw [hmove] at hans
    · cases hans
    · dsimp only at hans
      split at hans
      · cases hans
      · split at hans <;> cases hans <;> rfl

end

theorem makes_occurrence {once : NodeId → Move} {onceAttempt : NodeId → Attempt}
    (ho : ∀ id, (once id).Makes (onceAttempt id)) (hr : ∀ id, (move id).Makes (attempt id))
    (id : NodeId) (kind : NodeKind) : (occurrence once move id kind).Makes
      (Graph.occurrence onceAttempt attempt id kind) := by
  cases kind with
  | terminal l =>
    refine ⟨fun c s => ?_, fun {c d s t} hans => ?_⟩
    · simp only [occurrence, Graph.occurrence]
      cases c.consume l.toList <;> rfl
    · simp only [occurrence] at hans
      split at hans <;> cases hans
      rfl
  | charClass set =>
    refine ⟨fun c s => ?_, fun {c d s t} hans => ?_⟩
    · simp only [occurrence, Graph.occurrence]
      cases c.next with
      | none => rfl
      | some found => cases hmem : set.contains found.1 <;> simp [hmem, Moved.answer]
    · simp only [occurrence] at hans
      split at hans
      · split at hans <;> cases hans
        rfl
      · cases hans
        rfl
  | reference rule target =>
    cases target with
    | none =>
      refine ⟨fun _ _ => rfl, fun hans => ?_⟩
      cases hans
      rfl
    | some target => exact ho target
  | group children | rule name children =>
    refine ⟨fun c s => ?_, fun {c d s t} hans => ?_⟩
    · simp only [occurrence, Graph.occurrence]
      rw [← answer_inTurn hr]
      rcases inTurn move children c s with - | ⟨- | -, d, t⟩ <;> rfl
    · simp only [occurrence] at hans
      rcases hmoved : inTurn move children c s with - | ⟨- | -, e, u⟩ <;> rw [hmoved] at hans <;>
        cases hans
      rfl
  | choice options weights escapes =>
    have hfirst := makes_firstOf hr options
    refine ⟨fun c s => ?_, fun {c d s t} hans => ?_⟩
    · simp only [occurrence, Graph.occurrence]
      rw [← hfirst.answer]
      rcases firstOf move options c _ with - | ⟨- | -, d, t⟩ <;> rfl
    · simp only [occurrence] at hans
      rcases hopts : firstOf move options c _ with - | ⟨- | -, e, u⟩ <;> rw [hopts] at hans
      · cases hans
      · cases hans
        exact hfirst.rewinds hopts
      · cases hans
  | lookAhead positive operand =>
    cases operand with
    | none => exact ⟨fun _ _ => rfl, fun hans => (by cases hans)⟩
    | some operand => exact makes_lookAhead (hr operand) positive id
  | cut => exact ⟨fun _ _ => rfl, fun hans => (by cases hans)⟩

end Move

namespace Graph

theorem makes_moveOnce (g : Graph) (fuel : Nat) (id : NodeId) :
    (g.moveOnce fuel id).Makes (g.attempt fuel id) := by
  induction fuel generalizing id with
  | zero => exact ⟨fun _ _ => rfl, nofun⟩
  | succ fuel ih =>
    have hocc := Move.makes_occurrence ih (fun child =>
      Move.makes_repeated (ih child) (g.node child).repetition fuel) id (g.node id).kind
    refine ⟨fun c s => ?_, fun {c d s t} hans => ?_⟩
    · rw [moveOnce, attempt, ← hocc.answer]
      rcases Move.occurrence _ _ id (g.node id).kind c _ with - | ⟨- | -, d, t⟩ <;> rfl
    · rw [moveOnce] at hans
      split at hans
      · cases hans
      · next hmoved =>
        cases hans
        exact hocc.rewinds hmoved

theorem makes_moveNode (g : Graph) (fuel : Nat) (id : NodeId) :
    (g.moveNode fuel id).Makes (g.matchNode fuel id) :=
  Move.makes_repeated (g.makes_moveOnce fuel id) _ fuel

end Graph

/-- What a move leaves of a cursor and of a session. Only a match moves the cursor, and only forward
over whole characters; of the cut flags at most the innermost is another one, up where it was
down. -/
structure Moved.IsAtomic (m : Moved) (c : Cursor) (s : Session) : Prop where
  rewound : m.matched = false → m.cursor = c
  advanced : m.matched = true → ∃ n ≤ c.ahead.length, m.cursor = c.advance n
  placed : m.cursor.IsPlaced
  cuts : m.session.cuts = s.cuts ∨
    ∃ outer, s.cuts = false :: outer ∧ m.session.cuts = true :: outer
  depth : m.session.depth = s.depth

def NodeKind.isStill : NodeKind → Bool
  | lookAhead _ _ | cut => true
  | _ => false

theorem Attempt.Follows.exists_advance {attempt : Attempt} {read : Reader} {c d : Cursor}
    {s t : Session} (hc : c.IsPlaced) (h : attempt.Follows c.text read)
    (hans : attempt c s = some (some d, t)) : ∃ n ≤ c.ahead.length, d = c.advance n := by
  have hlength : c.text.length = c.back.length + c.ahead.length := by simp [Cursor.text]
  have hplace := Cursor.eq_atOffset hc
  have hat := h c.back.length (by omega) s
  rw [← hplace, hans] at hat
  rcases hread : read c.back.length with - | ⟨e, raised⟩ <;> rw [hread] at hat
  · cases hat
  · obtain ⟨hbounds, u, hsame, -⟩ := hat
    obtain ⟨hd, -⟩ := Prod.mk.inj (Option.some.inj hsame)
    obtain ⟨m, rfl, rfl⟩ := Option.map_eq_some_iff.1 hd.symm
    obtain ⟨hle, hend⟩ := hbounds m rfl
    refine ⟨m - c.back.length, by omega, ?_⟩
    calc Cursor.atOffset c.text m
        = Cursor.atOffset c.text (c.back.length + (m - c.back.length)) := by congr 1; omega
      _ = (Cursor.atOffset c.text c.back.length).advance (m - c.back.length) :=
          (Cursor.advance_atOffset _).symm
      _ = c.advance (m - c.back.length) := by rw [← hplace]

namespace Move

variable {move : Move} {attempt : Attempt} {c : Cursor} {s : Session} {m : Moved}

theorem Makes.isAtomic (h : move.Makes attempt) (hkeeps : attempt.Keeps) (hc : c.IsPlaced)
    {read : Reader} (hfollows : attempt.Follows c.text read) (hmoved : move c s = some m) :
    m.IsAtomic c s := by
  obtain ⟨matched, d, t⟩ := m
  have hanswer := h.answer c s
  rw [hmoved] at hanswer
  obtain ⟨hdepth, raised, hcuts⟩ := hkeeps c s _ t hanswer.symm
  have hrewound : matched = false → d = c := by
    rintro rfl
    exact h.rewinds hmoved
  have hadvanced : matched = true → ∃ n ≤ c.ahead.length, d = c.advance n := by
    rintro rfl
    exact hfollows.exists_advance hc hanswer.symm
  refine ⟨hrewound, hadvanced, ?_, ?_, hdepth⟩
  · cases matched with
    | false => exact hrewound rfl ▸ hc
    | true =>
      obtain ⟨n, -, rfl⟩ := hadvanced rfl
      exact hc.advance n
  · show t.cuts = s.cuts ∨ ∃ outer, s.cuts = false :: outer ∧ t.cuts = true :: outer
    rw [hcuts]
    cases raised with
    | false => exact .inl (raiseCut_false _)
    | true =>
      rcases s.cuts with - | ⟨- | -, outer⟩
      · exact .inl rfl
      · exact .inr ⟨outer, rfl, rfl⟩
      · exact .inl rfl

theorem still_lookAhead {positive : Bool} {id : NodeId}
    (h : lookAhead positive move id c s = some m) : m.cursor = c := by
  unfold lookAhead at h
  split at h
  · cases h
  · split at h
    · cases h
      rfl
    · split at h <;> cases h <;> rfl

theorem still_repeated (hstill : ∀ s m, move c s = some m → m.cursor = c) {r : Repetition}
    {fuel : Nat} (h : repeated move r fuel c s = some m) : m.cursor = c := by
  have hsettle : ∀ count t, (settle r c count c t).cursor = c := by
    intro count t
    unfold settle
    split <;> rfl
  unfold repeated at h
  cases fuel with
  | zero => cases h
  | succ fuel =>
    rw [occurrences] at h
    split at h
    · rcases hmove : move c s with - | ⟨- | -, d, t⟩ <;> rw [hmove] at h
      · cases h
      · obtain rfl : d = c := hstill s _ hmove
        obtain rfl := Option.some.inj h
        exact hsettle 0 t
      · -- the first of them is empty, so there are no more
        obtain rfl : d = c := hstill s _ hmove
        simp only [if_true] at h
        obtain rfl := Option.some.inj h
        exact hsettle _ t
    · obtain rfl := Option.some.inj h
      exact hsettle 0 s

end Move

namespace Graph

theorem still_moveOnce {g : Graph} {fuel : Nat} {id : NodeId} {c : Cursor}
    (hk : (g.node id).kind.isStill = true) {s : Session} {m : Moved}
    (h : g.moveOnce fuel id c s = some m) : m.cursor = c := by
  cases fuel with
  | zero => cases h
  | succ fuel =>
    rw [moveOnce] at h
    split at h
    · cases h
    · next matched d t hocc =>
      cases h
      generalize (g.node id).kind = kind at hk hocc
      cases kind with
      | lookAhead positive operand =>
        cases operand with
        | none =>
          cases hocc
          rfl
        | some operand =>
          have hstill := Move.still_lookAhead hocc
          exact hstill
      | cut =>
        cases hocc
        rfl
      | _ => cases hk

/-- On every graph, whatever its nodes refer to, a move is made as a whole or not at all, be it over
one occurrence of a node or over all of them; and what it answers is what an attempt does. -/
theorem moves_atomic (g : Graph) (fuel : Nat) (id : NodeId) {c : Cursor} (hc : c.IsPlaced)
    (s : Session) :
    ((g.moveOnce fuel id c s).map Moved.answer = g.attempt fuel id c s ∧
      (g.moveNode fuel id c s).map Moved.answer = g.matchNode fuel id c s) ∧
    ∀ m, g.moveOnce fuel id c s = some m ∨ g.moveNode fuel id c s = some m →
      m.IsAtomic c s ∧ ((g.node id).kind.isStill = true → m.cursor = c) := by
  have honce := g.makes_moveOnce fuel id
  have hnode := g.makes_moveNode fuel id
  refine ⟨⟨honce.answer c s, hnode.answer c s⟩, fun m hmoved => ?_⟩
  rcases hmoved with hmoved | hmoved
  · exact ⟨honce.isAtomic (keeps_attempt fuel id) hc (follows_attempt fuel id) hmoved,
      fun hk => still_moveOnce hk hmoved⟩
  · exact ⟨hnode.isAtomic (keeps_matchNode fuel id) hc (follows_matchNode fuel id) hmoved,
      fun hk => Move.still_repeated (fun _ _ => still_moveOnce hk) hmoved⟩

/-- Two occurrences of a node are made and three are asked for. It has a child twice, a cut, and a
look-ahead whose operand leads to no rule, to no option and back to the node itself. -/
theorem moves_atomic_undone : ∃ (g : Graph) (c : Cursor) (s : Session) (m : Moved),
    (g.node 0).repetition = ⟨3, some 2⟩ ∧ (g.node 0).kind.children = [1, 2, 1, 3] ∧
      g.HasChild 6 0 ∧ c = .atOffset "xaaaaa".toList 1 ∧ c.IsPlaced ∧ s.cuts = [false, true] ∧
      g.moveNode 9 0 c s = some m ∧ m.matched = false ∧ m.session.cuts = [true, true] ∧
      (g.moveNode 9 0 c s).map Moved.answer = g.matchNode 9 0 c s ∧ m.IsAtomic c s := by
  let g : Graph := ⟨#[(Node.ofKind (.group [1, 2, 1, 3]) .start).repeated ⟨3, some 2⟩,
    .ofKind (.terminal "a") .start, .ofKind .cut .start, .ofKind (.lookAhead false (some 4)) .start,
    .ofKind (.choice [5, 6] (.uniform 2) (.uniform 2)) .start,
    .ofKind (.reference "R" none) .start, .ofKind (.group [7, 0]) .start,
    .ofKind (.choice [] (.uniform 0) (.uniform 0)) .start], []⟩
  let c := Cursor.atOffset "xaaaaa".toList 1
  let s : Session := ⟨[false, true], [], some (.empty 4), 3⟩
  have hrun : (g.moveNode 9 0 c s).any fun m =>
      !m.matched && decide (m.session.cuts = [true, true]) := by
    decide +kernel
  obtain ⟨m, hmoved, hrun⟩ := (Option.any_eq_true _ _).1 hrun
  simp only [Bool.and_eq_true, Bool.not_eq_true', decide_eq_true_eq] at hrun
  have hplaced : c.IsPlaced := Cursor.isPlaced_atOffset
  obtain ⟨⟨-, hanswer⟩, hatomic⟩ := g.moves_atomic 9 0 hplaced s
  have hchild : g.HasChild 6 0 := List.mem_cons_of_mem 7 List.mem_cons_self
  exact ⟨g, c, s, m, rfl, rfl, hchild, rfl, hplaced, rfl, hmoved, hrun.1, hrun.2, hanswer,
    (hatomic m (.inr hmoved)).1⟩

end Graph

end Ebnf
