import Ebnf.Proofs.Linked
import Ebnf.Matching

/-! The meaning of a grammar's nodes on a text, without a session. At an offset, which counts
characters, one occurrence of a node or a row of them either fails or ends at another offset, and
either way it may have raised a cut. What a cut commits is the nearest alternative being tried, so
an alternative keeps what its options raise to itself, and everything else passes it on. -/

namespace Ebnf

inductive Task where
  | once (id : NodeId)
  | rest (id : NodeId) (count : Nat)
  | inTurn (ids : List NodeId)
  | firstOf (ids : List NodeId)

namespace Task

def whole (id : NodeId) : Task := rest id 0

def On (P : NodeId → Prop) : Task → Prop
  | once id | rest id _ => P id
  | inTurn ids | firstOf ids => ∀ id ∈ ids, P id

def Inside (n : Nat) (task : Task) : Prop := task.On (· < n)

end Task

namespace Repetition

def stop (r : Repetition) (count k : Nat) : Option Nat := if r.min ≤ count then some k else none

end Repetition

/-- `Reads g text task k e raised`: from offset `k` on, `task` ends at `e`, or fails if that is
none, and `raised` tells whether a cut was met on the way. -/
inductive Reads (g : Grammar) (text : List Char) : Task → Nat → Option Nat → Bool → Prop
  | literal {id k : Nat} {l : String} : (g.graph.node id).kind = .terminal l →
      l.toList <+: text.drop k → Reads g text (.once id) k (some (k + l.toList.length)) false
  | noLiteral {id k : Nat} {l : String} : (g.graph.node id).kind = .terminal l →
      ¬l.toList <+: text.drop k → Reads g text (.once id) k none false
  | character {id k : Nat} {set : CharClass} {c : Char} :
      (g.graph.node id).kind = .charClass set → text[k]? = some c → set.contains c = true →
      Reads g text (.once id) k (some (k + 1)) false
  | noCharacter {id k : Nat} {set : CharClass} : (g.graph.node id).kind = .charClass set →
      (∀ c, text[k]? = some c → set.contains c = false) → Reads g text (.once id) k none false
  | reference {id k root : Nat} {rule : String} {target : Option NodeId} {e : Option Nat}
      {raised : Bool} : (g.graph.node id).kind = .reference rule target →
      g.rules.lookup rule = some root → Reads g text (.once root) k e raised →
      Reads g text (.once id) k e raised
  | group {id k : Nat} {children : List NodeId} {e : Option Nat} {raised : Bool} :
      (g.graph.node id).kind = .group children → Reads g text (.inTurn children) k e raised →
      Reads g text (.once id) k e raised
  | rule {id k : Nat} {name : String} {children : List NodeId} {e : Option Nat} {raised : Bool} :
      (g.graph.node id).kind = .rule name children → Reads g text (.inTurn children) k e raised →
      Reads g text (.once id) k e raised
  | choice {id k : Nat} {options : List NodeId} {weights escapes : Distribution} {e : Option Nat}
      {raised : Bool} : (g.graph.node id).kind = .choice options weights escapes →
      Reads g text (.firstOf options) k e raised → Reads g text (.once id) k e false
  | lookAhead {id k operand : Nat} {positive : Bool} {e : Option Nat} {raised : Bool} :
      (g.graph.node id).kind = .lookAhead positive (some operand) →
      Reads g text (.whole operand) k e raised →
      Reads g text (.once id) k (if e.isSome = positive then some k else none) raised
  | cut {id k : Nat} : (g.graph.node id).kind = .cut → Reads g text (.once id) k (some k) true
  | full {id count k : Nat} : (g.graph.node id).repetition.hasRoom count = false →
      Reads g text (.rest id count) k ((g.graph.node id).repetition.stop count k) false
  | last {id count k : Nat} {raised : Bool} : (g.graph.node id).repetition.hasRoom count = true →
      Reads g text (.once id) k none raised →
      Reads g text (.rest id count) k ((g.graph.node id).repetition.stop count k) raised
  /-- An empty occurrence stands for all that are still missing. -/
  | empty {id count k : Nat} {raised : Bool} : (g.graph.node id).repetition.hasRoom count = true →
      Reads g text (.once id) k (some k) raised → Reads g text (.rest id count) k (some k) raised
  | more {id count k m : Nat} {e : Option Nat} {raised later : Bool} :
      (g.graph.node id).repetition.hasRoom count = true →
      Reads g text (.once id) k (some m) raised → m ≠ k →
      Reads g text (.rest id (count + 1)) m e later →
      Reads g text (.rest id count) k e (raised || later)
  | done {k : Nat} : Reads g text (.inTurn []) k (some k) false
  | blocked {id k : Nat} {ids : List NodeId} {raised : Bool} :
      Reads g text (.whole id) k none raised → Reads g text (.inTurn (id :: ids)) k none raised
  | onward {id k m : Nat} {ids : List NodeId} {e : Option Nat} {raised later : Bool} :
      Reads g text (.whole id) k (some m) raised → Reads g text (.inTurn ids) m e later →
      Reads g text (.inTurn (id :: ids)) k e (raised || later)
  | exhausted {k : Nat} : Reads g text (.firstOf []) k none false
  | taken {id k m : Nat} {ids : List NodeId} {raised : Bool} :
      Reads g text (.whole id) k (some m) raised →
      Reads g text (.firstOf (id :: ids)) k (some m) raised
  | committed {id k : Nat} {ids : List NodeId} : Reads g text (.whole id) k none true →
      Reads g text (.firstOf (id :: ids)) k none true
  | skipped {id k : Nat} {ids : List NodeId} {e : Option Nat} {raised : Bool} :
      Reads g text (.whole id) k none false → Reads g text (.firstOf ids) k e raised →
      Reads g text (.firstOf (id :: ids)) k e raised

namespace Reads

variable {g : Grammar} {text : List Char}

theorem bounds {task : Task} {k m : Nat} {e : Option Nat} {raised : Bool}
    (h : Reads g text task k e raised) (hk : k ≤ text.length) (he : e = some m) :
    k ≤ m ∧ m ≤ text.length := by
  induction h generalizing m with
  | @literal id k l _ hprefix =>
    have := hprefix.length_le
    rw [List.length_drop] at this
    cases he
    omega
  | noLiteral | noCharacter | exhausted | blocked | committed => cases he
  | @character id k set c _ hc =>
    have := (List.getElem?_eq_some_iff.1 hc).1
    cases he
    omega
  | reference _ _ _ ih | group _ _ ih | rule _ _ ih | choice _ _ ih => exact ih hk he
  | lookAhead =>
    split at he <;> cases he
    omega
  | cut | done | empty =>
    cases he
    omega
  | full | last =>
    simp only [Repetition.stop] at he
    split at he <;> cases he
    omega
  | more _ _ _ _ ih₁ ih₂ =>
    obtain ⟨h₁, h₁'⟩ := ih₁ hk rfl
    obtain ⟨h₂, h₂'⟩ := ih₂ h₁' he
    omega
  | onward _ _ ih₁ ih₂ =>
    obtain ⟨h₁, h₁'⟩ := ih₁ hk rfl
    obtain ⟨h₂, h₂'⟩ := ih₂ h₁' he
    omega
  | taken _ ih => exact ih hk he
  | skipped _ _ _ ih => exact ih hk he

end Reads

end Ebnf
