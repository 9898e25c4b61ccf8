import Ebnf.Proofs.Reading

/-! A matcher without a session. It works on offsets and answers where a node ends and whether a
cut was raised. An attempt with a session ends at the same place whatever the session holds, and of
its cut flags it can only raise the innermost one. -/

namespace Ebnf

abbrev Reader := Nat → Option (Option Nat × Bool)

namespace Reader

/-- The same answer with a cut that was raised before. -/
def after (raised : Bool) : Option (Option Nat × Bool) → Option (Option Nat × Bool)
  | some (e, later) => some (e, raised || later)
  | none => none

def inTurn (read : NodeId → Reader) : List NodeId → Reader
  | [], k => some (some k, false)
  | id :: ids, k =>
    match read id k with
    | some (some m, raised) => after raised (inTurn read ids m)
    | ended => ended

def firstOf (read : NodeId → Reader) : List NodeId → Reader
  | [], _ => some (none, false)
  | id :: ids, k =>
    match read id k with
    | some (none, false) => firstOf read ids k
    | ended => ended

def repeated (read : Reader) (r : Repetition) : (fuel : Nat) → (count : Nat) → Reader
  | 0, _, _ => none
  | fuel + 1, count, k =>
    if r.hasRoom count then
      match read k with
      | none => none
      | some (none, raised) => some (r.stop count k, raised)
      | some (some m, raised) =>
        if m = k then some (some k, raised) else after raised (repeated read r fuel (count + 1) m)
    else some (r.stop count k, false)

def lookAhead (positive : Bool) (read : Reader) : Reader := fun k =>
  match read k with
  | some (e, raised) => some (if e.isSome = positive then some k else none, raised)
  | none => none

def enclosed : Option (Option Nat × Bool) → Option (Option Nat × Bool)
  | some (e, _) => some (e, false)
  | none => none

def occurrence (text : List Char) (once repeated : NodeId → Reader) : NodeKind → Reader
  | .terminal l, k =>
    some (if l.toList <+: text.drop k then some (k + l.toList.length) else none, false)
  | .charClass set, k => some (if text[k]?.any set.contains then some (k + 1) else none, false)
  | .reference _ (some target), k => once target k
  | .reference _ none, _ => some (none, false)
  | .group children, k | .rule _ children, k => inTurn repeated children k
  | .choice options _ _, k => enclosed (firstOf repeated options k)
  | .lookAhead positive (some operand), k => lookAhead positive (repeated operand) k
  | .lookAhead _ none, k => some (some k, false)
  | .cut, k => some (some k, true)

end Reader

namespace Graph

def readOnce (g : Graph) (text : List Char) : (fuel : Nat) → NodeId → Reader
  | 0, _, _ => none
  | fuel + 1, id, k =>
    let once := g.readOnce text fuel
    let repeated := fun child => Reader.repeated (once child) (g.node child).repetition fuel 0
    Reader.occurrence text once repeated (g.node id).kind k

def readNode (g : Graph) (text : List Char) (fuel : Nat) (id : NodeId) : Reader :=
  Reader.repeated (g.readOnce text fuel id) (g.node id).repetition fuel 0

end Graph

namespace Cursor

/-- The place in a text before which `k` characters lie. -/
def atOffset (text : List Char) (k : Nat) : Cursor := (ofChars text).advance k

variable {text : List Char} {k m : Nat}

@[simp] theorem ahead_atOffset : (atOffset text k).ahead = text.drop k := rfl

theorem advance_atOffset (n : Nat) : (atOffset text k).advance n = atOffset text (k + n) := by
  simp only [atOffset, ofChars, advance, List.reverseAux_eq, List.append_nil, List.drop_drop,
    List.take_add, List.reverse_append, Position.along_append]

theorem next_atOffset :
    (atOffset text k).next = text[k]?.map fun c => (c, atOffset text (k + 1)) := by
  rw [next, current, ahead_atOffset, List.head?_drop, advance_atOffset]

theorem consume_atOffset (cs : List Char) : (atOffset text k).consume cs =
    if cs <+: text.drop k then some (atOffset text (k + cs.length)) else none := by
  simp only [consume, isAt, ahead_atOffset, List.isPrefixOf_iff_prefix, advance_atOffset]

theorem index_atOffset : (atOffset text k).index = byteCount (text.take k) := by
  simp [atOffset, ofChars, advance, index, Position.index_along, Position.start]

theorem byteCount_eq_zero {cs : List Char} : byteCount cs = 0 ↔ cs = [] := by
  cases cs with
  | nil => simp [byteCount]
  | cons c cs =>
    have := c.utf8Size_pos
    simp only [byteCount, reduceCtorEq, iff_false]
    omega

theorem index_atOffset_inj (hk : k ≤ m) (hm : m ≤ text.length) :
    (atOffset text m).index = (atOffset text k).index ↔ m = k := by
  refine ⟨fun h => ?_, fun h => by rw [h]⟩
  rw [index_atOffset, index_atOffset, show m = k + (m - k) by omega, List.take_add,
    byteCount_append] at h
  have := byteCount_eq_zero.1 (show byteCount ((text.drop k).take (m - k)) = 0 by omega)
  have := congrArg List.length this
  simp only [List.length_take, List.length_drop, List.length_nil] at this
  omega

end Cursor

def raiseCut (raised : Bool) : List Bool → List Bool
  | [] => []
  | c :: cuts => (c || raised) :: cuts

@[simp] theorem raiseCut_false (cuts : List Bool) : raiseCut false cuts = cuts := by
  cases cuts <;> simp [raiseCut]

@[simp] theorem raiseCut_raiseCut (a b : Bool) (cuts : List Bool) :
    raiseCut b (raiseCut a cuts) = raiseCut (a || b) cuts := by
  cases cuts <;> simp [raiseCut, Bool.or_assoc]

namespace Session

@[simp] theorem cuts_cut (s : Session) : s.cut.cuts = raiseCut true s.cuts := by
  obtain ⟨cuts, failures, trace, depth⟩ := s
  cases cuts <;> simp [cut, raiseCut]

@[simp] theorem cuts_enter (s : Session) (id : NodeId) (p : Position) :
    (s.enter id p).cuts = s.cuts := rfl

@[simp] theorem cuts_leave (s : Session) (id : NodeId) (matched : Bool) :
    (s.leave id matched).cuts = s.cuts := rfl

@[simp] theorem cuts_fail (s : Session) (id : Option NodeId) (p : Position) (r : Reason) :
    (s.fail id p r).cuts = s.cuts := rfl

@[simp] theorem cuts_failOn (s : Session) (id : NodeId) (p : Position) (r : Reason) :
    (s.failOn id p r).cuts = s.cuts := rfl

end Session

/-- An attempt made at offset `k` with these cut flags answers what is read there. -/
def Agrees (text : List Char) (k : Nat) (cuts : List Bool) :
    Option (Option Nat × Bool) → Option (Option Cursor × Session) → Prop
  | none, answer => answer = none
  | some (e, raised), answer => (∀ m, e = some m → k ≤ m ∧ m ≤ text.length) ∧
    ∃ s, answer = some (e.map (Cursor.atOffset text), s) ∧ s.cuts = raiseCut raised cuts

/-- An attempt answers what a reader does, at every offset and in every session. -/
def Attempt.Follows (text : List Char) (attempt : Attempt) (read : Reader) : Prop :=
  ∀ k ≤ text.length, ∀ s, Agrees text k s.cuts (read k) (attempt (.atOffset text k) s)

namespace Attempt

variable {text : List Char} {attempt : NodeId → Attempt} {read : NodeId → Reader}

theorem agrees_after {k m : Nat} {cuts : List Bool} {raised : Bool} {s : Session}
    {o : Option (Option Nat × Bool)} {answer : Option (Option Cursor × Session)}
    (hs : s.cuts = raiseCut raised cuts) (hk : k ≤ m) (h : Agrees text m s.cuts o answer) :
    Agrees text k cuts (Reader.after raised o) answer := by
  cases o with
  | none => exact h
  | some o =>
    obtain ⟨hle, s', hans, hcuts⟩ := h
    refine ⟨fun n hn => ?_, s', hans, by rw [hcuts, hs, raiseCut_raiseCut]⟩
    obtain ⟨h₁, h₂⟩ := hle n hn
    omega

theorem follows_inTurn (h : ∀ id, (attempt id).Follows text (read id)) (ids : List NodeId) :
    (inTurn attempt ids).Follows text (Reader.inTurn read ids) := by
  intro k hk s
  induction ids generalizing k s with
  | nil => exact ⟨by rintro m ⟨⟩; omega, s, rfl, by simp⟩
  | cons id ids ih =>
    have hid := h id k hk s
    rw [inTurn, Reader.inTurn]
    rcases hr : read id k with - | ⟨- | m, raised⟩ <;> rw [hr] at hid
    · rw [hid]
      rfl
    · obtain ⟨-, s', hans, hcuts⟩ := hid
      rw [hans]
      exact ⟨nofun, s', rfl, hcuts⟩
    · obtain ⟨hm, s', hans, hcuts⟩ := hid
      rw [hans]
      exact agrees_after hcuts (hm m rfl).1 (ih m (hm m rfl).2 s')

theorem agrees_firstOf (h : ∀ id, (attempt id).Follows text (read id)) {cuts : List Bool}
    (ids : List NodeId) {k : Nat} (hk : k ≤ text.length) {s : Session}
    (hs : s.cuts = false :: cuts) :
    Agrees text k (false :: cuts) (Reader.firstOf read ids k)
      (firstOf attempt ids (.atOffset text k) s) := by
  induction ids generalizing s with
  | nil => exact ⟨nofun, s, rfl, by simp [hs]⟩
  | cons id ids ih =>
    have hid := h id k hk s
    rw [hs] at hid
    rw [firstOf, Reader.firstOf]
    rcases hr : read id k with - | ⟨- | m, raised⟩ <;> rw [hr] at hid
    · rw [hid]
      rfl
    · obtain ⟨-, s', hans, hcuts⟩ := hid
      rw [hans]
      cases raised with
      | false =>
        have hopen : s'.cuts = false :: cuts := by simpa using hcuts
        simpa [Session.isCommitted, hopen] using ih hopen
      | true =>
        have hcommitted : s'.isCommitted = true := by simp [Session.isCommitted, hcuts, raiseCut]
        exact ⟨nofun, s', by simp [hcommitted], hcuts⟩
    · obtain ⟨hm, s', hans, hcuts⟩ := hid
      rw [hans]
      exact ⟨hm, s', rfl, hcuts⟩

theorem settle_atOffset (r : Repetition) (count k : Nat) (s : Session) :
    settle r count (.atOffset text k) s = ((r.stop count k).map (Cursor.atOffset text), s) := by
  simp only [settle, Repetition.stop]
  split <;> rfl

theorem follows_repeated {attempt : Attempt} {read : Reader} (h : attempt.Follows text read)
    (r : Repetition) (fuel count : Nat) :
    (repeated attempt r fuel count).Follows text (Reader.repeated read r fuel count) := by
  have stays : ∀ n k : Nat, k ≤ text.length → ∀ m, r.stop n k = some m →
      k ≤ m ∧ m ≤ text.length := by
    intro n k hk m hm
    simp only [Repetition.stop] at hm
    split at hm <;> cases hm
    omega
  intro k hk s
  induction fuel generalizing count k s with
  | zero => rfl
  | succ fuel ih =>
    have hat := h k hk s
    rw [repeated, Reader.repeated]
    split
    · rcases hr : read k with - | ⟨- | m, raised⟩ <;> rw [hr] at hat
      · rw [hat]
        rfl
      · obtain ⟨-, s', hans, hcuts⟩ := hat
        rw [hans]
        simp only [settle_atOffset]
        exact ⟨stays count k hk, s', rfl, hcuts⟩
      · obtain ⟨hm, s', hans, hcuts⟩ := hat
        obtain ⟨hkm, hlen⟩ := hm m rfl
        rw [hans]
        simp only [Option.map_some, Cursor.index_atOffset_inj hkm hlen]
        split
        · next heq =>
          subst heq
          have : r.stop (max (count + 1) r.min) m = some m :=
            if_pos (Nat.le_max_right _ _)
          rw [settle_atOffset, this]
          exact ⟨hm, s', rfl, hcuts⟩
        · exact agrees_after hcuts hkm (ih (count + 1) m hlen s')
    · rw [settle_atOffset]
      exact ⟨stays count k hk, s, rfl, by simp⟩

theorem follows_lookAhead {attempt : Attempt} {read : Reader} (h : attempt.Follows text read)
    (positive : Bool) (id : NodeId) :
    (lookAhead positive attempt id).Follows text (Reader.lookAhead positive read) := by
  intro k hk s
  have hat := h k hk s
  have stays : ∀ m, some k = some m → k ≤ m ∧ m ≤ text.length := by
    rintro m ⟨⟩
    omega
  rw [lookAhead, Reader.lookAhead]
  rcases hr : read k with - | ⟨e, raised⟩ <;> rw [hr] at hat
  · rw [hat]
    rfl
  · obtain ⟨-, s', hans, hcuts⟩ := hat
    rw [hans]
    cases e <;> cases positive
    · exact ⟨stays, s', rfl, hcuts⟩
    · exact ⟨nofun, _, rfl, by simpa using hcuts⟩
    · exact ⟨nofun, _, rfl, by simpa using hcuts⟩
    · exact ⟨stays, s', rfl, hcuts⟩

theorem follows_occurrence {once : NodeId → Attempt} {readOnce : NodeId → Reader}
    (ho : ∀ id, (once id).Follows text (readOnce id))
    (hr : ∀ id, (attempt id).Follows text (read id)) (id : NodeId) (kind : NodeKind) :
    (Graph.occurrence once attempt id kind).Follows text
      (Reader.occurrence text readOnce read kind) := by
  intro k hk s
  have stays : ∀ m, some k = some m → k ≤ m ∧ m ≤ text.length := by
    rintro m ⟨⟩
    omega
  cases kind with
  | terminal l =>
    by_cases h : l.toList <+: text.drop k
    · have hlen := h.length_le
      rw [List.length_drop] at hlen
      simp only [Graph.occurrence, Reader.occurrence, Cursor.consume_atOffset, if_pos h]
      refine ⟨?_, s, rfl, by simp⟩
      rintro m ⟨⟩
      omega
    · simp only [Graph.occurrence, Reader.occurrence, Cursor.consume_atOffset, if_neg h]
      exact ⟨nofun, _, rfl, by simp⟩
  | charClass set =>
    simp only [Graph.occurrence, Reader.occurrence, Cursor.next_atOffset]
    cases hc : text[k]? with
    | none => exact ⟨nofun, _, rfl, by simp⟩
    | some c =>
      have hlt := (List.getElem?_eq_some_iff.1 hc).1
      by_cases hmem : set.contains c = true
      · simp only [Option.map_some, Option.any_some, hmem, if_true]
        refine ⟨?_, s, rfl, by simp⟩
        rintro m ⟨⟩
        omega
      · simp only [Option.map_some, Option.any_some, hmem]
        exact ⟨nofun, _, rfl, by simp⟩
  | reference rule target =>
    cases target with
    | none => exact ⟨nofun, _, rfl, by simp⟩
    | some target => exact ho target k hk s
  | group children | rule name children =>
    have h := follows_inTurn hr children k hk s
    simp only [Graph.occurrence, Reader.occurrence]
    rcases hread : Reader.inTurn read children k with - | ⟨- | m, raised⟩ <;> rw [hread] at h
    · rw [h]
      rfl
    · obtain ⟨-, s', hans, hcuts⟩ := h
      rw [hans]
      exact ⟨nofun, _, rfl, hcuts⟩
    · obtain ⟨hm, s', hans, hcuts⟩ := h
      rw [hans]
      exact ⟨hm, s', rfl, hcuts⟩
  | choice options weights escapes =>
    have h := agrees_firstOf hr options hk (s := { s with cuts := false :: s.cuts }) rfl
    simp only [Graph.occurrence, Reader.occurrence]
    rcases hread : Reader.firstOf read options k with - | ⟨e, raised⟩ <;> rw [hread] at h
    · rw [h]
      rfl
    · obtain ⟨hm, s', hans, hcuts⟩ := h
      have htail : s'.cuts.tail = raiseCut false s.cuts := by
        rw [hcuts, raiseCut_false]
        rfl
      rw [hans]
      cases e with
      | none => exact ⟨nofun, _, rfl, htail⟩
      | some m => exact ⟨hm, _, rfl, htail⟩
  | lookAhead positive operand =>
    cases operand with
    | none => exact ⟨stays, s, rfl, by simp⟩
    | some operand => exact follows_lookAhead (hr operand) positive id k hk s
  | cut => exact ⟨stays, _, rfl, by simp⟩

end Attempt

namespace Graph

variable {g : Graph} {text : List Char}

theorem follows_attempt (fuel : Nat) (id : NodeId) :
    (g.attempt fuel id).Follows text (g.readOnce text fuel id) := by
  induction fuel generalizing id with
  | zero => exact fun _ _ _ => rfl
  | succ fuel ih =>
    intro k hk s
    have h := Attempt.follows_occurrence ih (fun child => Attempt.follows_repeated (ih child)
      (g.node child).repetition fuel 0) id (g.node id).kind k hk
      (s.enter id (Cursor.atOffset text k).position)
    rw [attempt, readOnce]
    rcases hread : Reader.occurrence text (g.readOnce text fuel) (fun child =>
        Reader.repeated (g.readOnce text fuel child) (g.node child).repetition fuel 0)
        (g.node id).kind k with - | ⟨e, raised⟩ <;> simp only [hread] at h ⊢
    · rw [h]
      rfl
    · obtain ⟨hm, s', hans, hcuts⟩ := h
      rw [hans]
      exact ⟨hm, _, rfl, hcuts⟩

theorem follows_matchNode (fuel : Nat) (id : NodeId) :
    (g.matchNode fuel id).Follows text (g.readNode text fuel id) :=
  Attempt.follows_repeated (follows_attempt fuel id) _ fuel 0

end Graph

end Ebnf
