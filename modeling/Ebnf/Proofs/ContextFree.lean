import Ebnf.Proofs.Linked
import Ebnf.Generation

/-! The context-free reading of a grammar. Options are unordered, a node stands for any number of
occurrences that its repetition admits, look-aheads and cuts are empty, and a reference is what its
rule is. Some references and alternatives may be left unexpanded, and the texts they leave holes in
are derived along with the others. -/

namespace Ebnf

inductive Piece where
  | once (id : NodeId)
  | times (id : NodeId) (count : Nat)
  | whole (id : NodeId)
  | inTurn (ids : List NodeId)

inductive Derives (g : Grammar) : Piece → List Char → Nat → Prop
  | terminal {id : Nat} {l : String} : (g.graph.node id).kind = .terminal l →
      Derives g (.once id) l.toList 0
  | character {id : Nat} {set : CharClass} {c : Char} : (g.graph.node id).kind = .charClass set →
      set.contains c = true → Derives g (.once id) [c] 0
  | reference {id root holes : Nat} {rule : String} {target : Option NodeId} {text : List Char} :
      (g.graph.node id).kind = .reference rule target → g.rules.lookup rule = some root →
      Derives g (.once root) text holes → Derives g (.once id) text holes
  | group {id holes : Nat} {children : List NodeId} {text : List Char} :
      (g.graph.node id).kind = .group children → Derives g (.inTurn children) text holes →
      Derives g (.once id) text holes
  | rule {id holes : Nat} {name : String} {children : List NodeId} {text : List Char} :
      (g.graph.node id).kind = .rule name children → Derives g (.inTurn children) text holes →
      Derives g (.once id) text holes
  | option {id option holes : Nat} {options : List NodeId} {weights escapes : Distribution}
      {text : List Char} : (g.graph.node id).kind = .choice options weights escapes →
      option ∈ options → Derives g (.whole option) text holes → Derives g (.once id) text holes
  | lookAhead {id : Nat} {positive : Bool} {operand : Option NodeId} :
      (g.graph.node id).kind = .lookAhead positive operand → Derives g (.once id) [] 0
  | cut {id : Nat} : (g.graph.node id).kind = .cut → Derives g (.once id) [] 0
  | openReference {id : Nat} {rule : String} {target : Option NodeId} :
      (g.graph.node id).kind = .reference rule target →
      Derives g (.once id) Draft.placeholder.toList 1
  | openChoice {id : Nat} {options : List NodeId} {weights escapes : Distribution} :
      (g.graph.node id).kind = .choice options weights escapes →
      Derives g (.once id) Draft.placeholder.toList 1
  | noTimes {id : Nat} : Derives g (.times id 0) [] 0
  | oneMore {id count holes later : Nat} {text rest : List Char} :
      Derives g (.once id) text holes → Derives g (.times id count) rest later →
      Derives g (.times id (count + 1)) (text ++ rest) (holes + later)
  | whole {id count holes : Nat} {text : List Char} :
      (g.graph.node id).repetition.admits count = true → Derives g (.times id count) text holes →
      Derives g (.whole id) text holes
  | done : Derives g (.inTurn []) [] 0
  | onward {id holes later : Nat} {ids : List NodeId} {text rest : List Char} :
      Derives g (.whole id) text holes → Derives g (.inTurn ids) rest later →
      Derives g (.inTurn (id :: ids)) (text ++ rest) (holes + later)

namespace Derives

variable {g : Grammar} {id : NodeId} {text : List Char}

theorem once_inv (h : Derives g (.once id) text 0) :
    match (g.graph.node id).kind with
    | .terminal l => text = l.toList
    | .charClass set => ∃ c, set.contains c = true ∧ text = [c]
    | .reference name _ => ∃ root, g.rules.lookup name = some root ∧ Derives g (.once root) text 0
    | .group children | .rule _ children => Derives g (.inTurn children) text 0
    | .choice options _ _ => ∃ option ∈ options, Derives g (.whole option) text 0
    | .lookAhead _ _ | .cut => text = [] := by
  cases h with
  | terminal hk =>
    rw [hk]
  | character hk hc =>
    rw [hk]
    exact ⟨_, hc, rfl⟩
  | reference hk hroot htext =>
    rw [hk]
    exact ⟨_, hroot, htext⟩
  | group hk htext | rule hk htext =>
    rw [hk]
    exact htext
  | option hk hoption htext =>
    rw [hk]
    exact ⟨_, hoption, htext⟩
  | lookAhead hk | cut hk =>
    rw [hk]

theorem times_zero_inv (h : Derives g (.times id 0) text 0) : text = [] := by
  cases h
  rfl

theorem times_succ_inv {count : Nat} (h : Derives g (.times id (count + 1)) text 0) :
    ∃ first rest, text = first ++ rest ∧ Derives g (.once id) first 0 ∧
      Derives g (.times id count) rest 0 := by
  generalize hnone : 0 = none at h
  cases h with
  | @oneMore _ _ holes later first rest hfirst hrest =>
    obtain ⟨rfl, rfl⟩ : holes = 0 ∧ later = 0 := by omega
    exact ⟨first, rest, rfl, hfirst, hrest⟩

theorem whole_inv (h : Derives g (.whole id) text 0) :
    ∃ count, (g.graph.node id).repetition.admits count = true ∧
      Derives g (.times id count) text 0 := by
  cases h with
  | whole hcount htext => exact ⟨_, hcount, htext⟩

theorem inTurn_nil_inv (h : Derives g (.inTurn []) text 0) : text = [] := by
  cases h
  rfl

theorem inTurn_cons_inv {ids : List NodeId} (h : Derives g (.inTurn (id :: ids)) text 0) :
    ∃ first rest, text = first ++ rest ∧ Derives g (.whole id) first 0 ∧
      Derives g (.inTurn ids) rest 0 := by
  generalize hnone : 0 = none at h
  cases h with
  | @onward _ holes later _ first rest hfirst hrest =>
    obtain ⟨rfl, rfl⟩ : holes = 0 ∧ later = 0 := by omega
    exact ⟨first, rest, rfl, hfirst, hrest⟩

theorem times_nil (h : Derives g (.once id) [] 0) (count : Nat) :
    Derives g (.times id count) [] 0 := by
  induction count with
  | zero => exact .noTimes
  | succ count ih => exact .oneMore h ih

end Derives

/-- A text of a rule, with so many holes. -/
def Grammar.Derivable (g : Grammar) (rule text : String) (holes : Nat) : Prop :=
  ∃ root, g.rules.lookup rule = some root ∧ Derives g (.whole root) text.toList holes

end Ebnf
