import Ebnf.Proofs.Moves
import Ebnf.Proofs.Reading.Derives

/-! Rows of occurrences in full. A row that comes to an empty occurrence takes it for all that are
still missing and ends. Where the number of occurrences is bounded it could as well go on to the
bound: at the same place the same occurrence is made again, whatever cut it has raised meanwhile, so
the row ends where it has ended before. -/

namespace Ebnf

/-- Occurrences until one fails or there is no room for more, be they empty or not. -/
def Attempt.inFull (attempt : Attempt) (r : Repetition) : (fuel : Nat) → (count : Nat) → Attempt
  | 0, _, _, _ => none
  | fuel + 1, count, c, s =>
    if r.hasRoom count then
      match attempt c s with
      | none => none
      | some (none, s) => some (settle r count c s)
      | some (some d, s) => inFull attempt r fuel (count + 1) d s
    else some (settle r count c s)

/-- A node with all its occurrences, each of which is attempted. -/
def Graph.matchInFull (g : Graph) (fuel : Nat) (id : NodeId) : Attempt :=
  Attempt.inFull (g.attempt fuel id) (g.node id).repetition fuel 0

namespace Reader

def inFull (read : Reader) (r : Repetition) : (fuel : Nat) → (count : Nat) → Reader
  | 0, _, _ => none
  | fuel + 1, count, k =>
    if r.hasRoom count then
      match read k with
      | none => none
      | some (none, raised) => some (r.stop count k, raised)
      | some (some m, raised) => after raised (inFull read r fuel (count + 1) m)
    else some (r.stop count k, false)

section

variable {read : Reader} {r : Repetition} {max count fuel k : Nat}

theorem hasRoom_iff_lt (hmax : r.max = some max) : r.hasRoom count = true ↔ count < max := by
  simp [Repetition.hasRoom_iff, hmax]

theorem after_inFull_of_empty (hmax : r.max = some max) (hproper : r.min ≤ max) {raised : Bool}
    (hempty : read k = some (some k, raised)) (hcount : count ≤ max) (hfuel : max < fuel + count) :
    after raised (inFull read r fuel count k) = some (some k, raised) := by
  induction fuel generalizing count with
  | zero => omega
  | succ fuel ih =>
    rw [inFull]
    split
    · next hroom =>
      have hlt := (hasRoom_iff_lt hmax).1 hroom
      have hrest : after raised (inFull read r fuel (count + 1) k) = some (some k, raised) :=
        ih (by omega) (by omega)
      simp only [hempty]
      rw [hrest]
      simp only [after, Bool.or_self]
    · next hroom =>
      have hge := Nat.not_lt.1 fun hlt => hroom ((hasRoom_iff_lt hmax).2 hlt)
      have hstop : r.stop count k = some k := if_pos (hproper.trans hge)
      simp only [hstop, after, Bool.or_false]

theorem repeated_eq_inFull (hmax : r.max = some max) (hproper : r.min ≤ max) (hcount : count ≤ max)
    (hfuel : max < fuel + count) : repeated read r fuel count k = inFull read r fuel count k := by
  induction fuel generalizing count k with
  | zero => omega
  | succ fuel ih =>
    rw [repeated, inFull]
    split
    · next hroom =>
      have hlt := (hasRoom_iff_lt hmax).1 hroom
      rcases hread : read k with - | ⟨- | m, raised⟩
      · rfl
      · rfl
      · dsimp only
        split
        · next hsame =>
          -- the row ends here, and in full it comes to the bound without moving
          subst hsame
          exact (after_inFull_of_empty hmax hproper hread (by omega) (by omega)).symm
        · rw [ih (by omega) (by omega)]
    · rfl

end

theorem inFull_mono {text : List Char} {read read' : Reader} (hin : Inside text read)
    (h : Below text read read') (r : Repetition) {fuel fuel' : Nat} (hle : fuel ≤ fuel')
    (count : Nat) : Below text (inFull read r fuel count) (inFull read' r fuel' count) := by
  induction fuel generalizing fuel' count with
  | zero => exact fun _ _ _ hv => nomatch hv
  | succ fuel ih =>
    obtain ⟨fuel', rfl⟩ : ∃ f, fuel' = f + 1 := ⟨fuel' - 1, by omega⟩
    intro k hk v hv
    rw [inFull] at hv ⊢
    split at hv
    · next hroom =>
      rw [if_pos hroom]
      rcases hr : read k with - | ⟨- | m, raised⟩ <;> rw [hr] at hv
      · cases hv
      · rw [h k hk _ hr]
        exact hv
      · rw [h k hk _ hr]
        exact after_mono (fun v => ih (by omega) (count + 1) m (hin k hk m raised hr).2 v) hv
    · next hroom => rwa [if_neg hroom]

end Reader

theorem Repetition.bounds_of_stop {r : Repetition} {count k m length : Nat}
    (h : r.stop count k = some m) (hk : k ≤ length) : k ≤ m ∧ m ≤ length := by
  unfold Repetition.stop at h
  split at h <;> cases h
  omega

theorem Attempt.follows_inFull {text : List Char} {attempt : Attempt} {read : Reader}
    (h : attempt.Follows text read) (r : Repetition) (fuel count : Nat) :
    (inFull attempt r fuel count).Follows text (Reader.inFull read r fuel count) := by
  intro k hk s
  induction fuel generalizing count k s with
  | zero => rfl
  | succ fuel ih =>
    have hat := h k hk s
    rw [inFull, Reader.inFull]
    split
    · rcases hr : read k with - | ⟨- | m, raised⟩ <;> rw [hr] at hat
      · rw [hat]
        rfl
      · obtain ⟨-, s', hans, hcuts⟩ := hat
        rw [hans]
        simp only [settle_atOffset]
        exact ⟨fun m hm => Repetition.bounds_of_stop hm hk, s', rfl, hcuts⟩
      · obtain ⟨hm, s', hans, hcuts⟩ := hat
        obtain ⟨hkm, hlen⟩ := hm m rfl
        rw [hans]
        exact agrees_after hcuts hkm (ih (count + 1) m hlen s')
    · rw [settle_atOffset]
      exact ⟨fun m hm => Repetition.bounds_of_stop hm hk, s, rfl, by simp⟩

namespace Graph

variable {g : Graph} {text : List Char}

theorem exists_readNode_iff_inFull {id max : Nat} (hmax : (g.node id).repetition.max = some max)
    (hproper : (g.node id).repetition.min ≤ max) {k : Nat} (hk : k ≤ text.length)
    {v : Option Nat × Bool} : (∃ fuel, g.readNode text fuel id k = some v) ↔
      ∃ fuel, Reader.inFull (g.readOnce text fuel id) (g.node id).repetition fuel 0 k = some v := by
  -- more fuel keeps the answer, and with more than `max` both rows are the same
  have hsame : ∀ fuel, max < fuel → g.readNode text fuel id k =
      Reader.inFull (g.readOnce text fuel id) (g.node id).repetition fuel 0 k := fun fuel hfuel =>
    Reader.repeated_eq_inFull hmax hproper (Nat.zero_le max) hfuel
  constructor
  · rintro ⟨fuel, hread⟩
    have hmore := readNode_mono (Nat.le_add_right fuel (max + 1)) id k hk v hread
    rw [hsame (fuel + (max + 1)) (by omega)] at hmore
    exact ⟨_, hmore⟩
  · rintro ⟨fuel, hread⟩
    have hmore := Reader.inFull_mono (inside_readOnce fuel id)
      (readOnce_mono (Nat.le_add_right fuel (max + 1)) id) (g.node id).repetition
      (Nat.le_add_right fuel (max + 1)) 0 k hk v hread
    rw [← hsame (fuel + (max + 1)) (by omega)] at hmore
    exact ⟨_, hmore⟩

end Graph

namespace Grammar

/-- In a parsed grammar, a node whose occurrences are bounded in number matches as it does with
every occurrence attempted: with some fuel both end at the same place, or fail, and leave the same
cut flags. -/
theorem match_iff_inFull {source : String} {settings : EngineSettings} {g : Grammar}
    (h : parse source settings = .ok g) {id max : Nat}
    (hmax : (g.graph.node id).repetition.max = some max) {c : Cursor} (hc : c.IsPlaced)
    (s : Session) (result : Option Cursor) (cuts : List Bool) :
    (∃ fuel t, g.graph.matchNode fuel id c s = some (result, t) ∧ t.cuts = cuts) ↔
      ∃ fuel t, g.graph.matchInFull fuel id c s = some (result, t) ∧ t.cuts = cuts := by
  have hproper := (isFresh_parse h id).repetition max hmax
  have hlength : c.back.length ≤ c.text.length := by simp [Cursor.text]
  have hnode (fuel : Nat) : Agrees c.text c.back.length s.cuts
      (g.graph.readNode c.text fuel id c.back.length)
      (g.graph.matchNode fuel id (.atOffset c.text c.back.length) s) :=
    Graph.follows_matchNode fuel id c.back.length hlength s
  have hfull (fuel : Nat) : Agrees c.text c.back.length s.cuts
      (Reader.inFull (g.graph.readOnce c.text fuel id) (g.graph.node id).repetition fuel 0
        c.back.length)
      (g.graph.matchInFull fuel id (.atOffset c.text c.back.length) s) :=
    Attempt.follows_inFull (Graph.follows_attempt fuel id) _ fuel 0 c.back.length hlength s
  rw [← Cursor.eq_atOffset hc] at hnode hfull
  have hswap {P : Nat → Option Nat → Bool → Prop} :
      (∃ fuel e raised, P fuel e raised) ↔ ∃ e raised fuel, P fuel e raised :=
    exists_comm.trans (exists_congr fun e => exists_comm)
  calc (∃ fuel t, g.graph.matchNode fuel id c s = some (result, t) ∧ t.cuts = cuts)
      ↔ ∃ e raised, (∃ fuel, g.graph.readNode c.text fuel id c.back.length = some (e, raised)) ∧
          result = e.map (Cursor.atOffset c.text) ∧ cuts = raiseCut raised s.cuts := by
        simp only [(hnode _).answer_iff, ← exists_and_right]
        exact hswap
    _ ↔ ∃ e raised, (∃ fuel, Reader.inFull (g.graph.readOnce c.text fuel id)
            (g.graph.node id).repetition fuel 0 c.back.length = some (e, raised)) ∧
          result = e.map (Cursor.atOffset c.text) ∧ cuts = raiseCut raised s.cuts := by
        simp only [Graph.exists_readNode_iff_inFull hmax hproper hlength]
    _ ↔ ∃ fuel t, g.graph.matchInFull fuel id c s = some (result, t) ∧ t.cuts = cuts := by
        simp only [(hfull _).answer_iff, ← exists_and_right]
        exact hswap.symm

/-- Two letters and an empty occurrence that stands for the other two; in full the row goes on to
six occurrences. Each of them raises a cut. -/
theorem match_iff_inFull_emptied : ∃ (g : Grammar) (c d : Cursor) (s : Session),
    parse "S ::= (\"a\"? ~)\x7b4,6\x7d" .standard = .ok g ∧
      (g.graph.node 1).repetition = ⟨4, some 6⟩ ∧ c = .atOffset "xaab".toList 1 ∧ c.IsPlaced ∧
      s.cuts = [false, false] ∧ d.index = 3 ∧
      (∃ fuel t, g.graph.matchNode fuel 1 c s = some (some d, t) ∧ t.cuts = [true, false]) ∧
      ∃ fuel t, g.graph.matchInFull fuel 1 c s = some (some d, t) ∧ t.cuts = [true, false] := by
  let c := Cursor.atOffset "xaab".toList 1
  let s : Session := ⟨[false, false], [], none, 0⟩
  have hrun : (parse "S ::= (\"a\"? ~)\x7b4,6\x7d" .standard).toOption.map (fun g =>
      ((g.graph.node 1).repetition, (g.graph.matchNode 9 1 c s).map fun a =>
        (a.1.map Cursor.index, a.2.cuts))) =
      some (⟨4, some 6⟩, some (some 3, [true, false])) := by decide +kernel
  obtain ⟨g, hparse, hrun⟩ := Option.map_eq_some_iff.1 hrun
  rw [toOption_eq_some] at hparse
  obtain ⟨hrepetition, hmatch⟩ := Prod.mk.inj hrun
  obtain ⟨⟨result, t⟩, hmatch, hend⟩ := Option.map_eq_some_iff.1 hmatch
  obtain ⟨hindex, hcuts⟩ := Prod.mk.inj hend
  obtain ⟨d, rfl, hd⟩ := Option.map_eq_some_iff.1 hindex
  have hmax : (g.graph.node 1).repetition.max = some 6 := by rw [hrepetition]
  have hplaced : c.IsPlaced := Cursor.isPlaced_atOffset
  have hread : ∃ fuel t, g.graph.matchNode fuel 1 c s = some (some d, t) ∧
      t.cuts = [true, false] := ⟨9, t, hmatch, hcuts⟩
  exact ⟨g, c, d, s, hparse, hrepetition, rfl, hplaced, rfl, hd, hread,
    (match_iff_inFull hparse hmax hplaced s _ _).1 hread⟩

end Grammar

end Ebnf
