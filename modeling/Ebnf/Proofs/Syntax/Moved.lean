import Ebnf.Proofs.Reordered

/-! Phrases at other places. What a phrase stands for hangs on its tokens alone: when their places
are changed, those of the trees change with them and nothing else does. -/

namespace Ebnf

def Token.moved (f : Position → Position) (t : Token) : Token := ⟨t.lexeme, f t.position⟩

def Tag.moved (f : Position → Position) (t : Tag) : Tag := { t with position := f t.position }

def Part.moved (f : Position → Position) : Part → Part
  | barred position => barred (f position)
  | part => part

namespace Tree

mutual

def moved (f : Position → Position) : Tree → Tree
  | leaf l tag => leaf l (tag.moved f)
  | group items tag => group (movedAll f items) (tag.moved f)
  | choice options position => choice (movedAll f options) (f position)
  | lookAhead positive operand position => lookAhead positive (operand.moved f) (f position)

def movedAll (f : Position → Position) : List Tree → List Tree
  | [] => []
  | t :: ts => t.moved f :: movedAll f ts

end

theorem movedAll_eq (f : Position → Position) (ts : List Tree) :
    movedAll f ts = ts.map (moved f) := by
  induction ts with
  | nil => rfl
  | cons t ts ih => exact congrArg (t.moved f :: ·) ih

mutual

theorem unplaced_moved (f : Position → Position) : ∀ t : Tree, (t.moved f).unplaced = t.unplaced
  | leaf _ _ => rfl
  | group items tag => congrArg (group · { tag with position := .start })
      (unplacedAll_movedAll f items)
  | choice options _ => congrArg (choice · .start) (unplacedAll_movedAll f options)
  | lookAhead positive operand _ => congrArg (lookAhead positive · .start)
      (unplaced_moved f operand)

theorem unplacedAll_movedAll (f : Position → Position) : ∀ ts : List Tree,
    unplacedAll (movedAll f ts) = unplacedAll ts
  | [] => rfl
  | t :: ts => by
    rw [movedAll, unplacedAll, unplacedAll, unplaced_moved f t, unplacedAll_movedAll f ts]

end

theorem Quantified.moved (f : Position → Position) {t t' : Tree} {q : Lexeme}
    (h : t.Quantified q t') : (t.moved f).Quantified q (t'.moved f) := by
  cases h with
  | leaf hq =>
    cases hq with
    | intro hmark hlabel => exact .leaf (.intro hmark hlabel)
  | group hq =>
    cases hq with
    | intro hmark hlabel => exact .group (.intro hmark hlabel)

end Tree

theorem Phrase.moved (f : Position → Position) {part : Part} {ts : List Token} {trees : List Tree}
    (h : Phrase part ts trees) :
    Phrase (part.moved f) (ts.map (Token.moved f)) (trees.map (Tree.moved f)) := by
  induction h with
  | leaf hspells => exact .leaf hspells
  | group hopening _ hclosing ih =>
    simp only [List.map_cons, List.map_append, List.map_nil, Tree.moved, Tree.movedAll_eq]
    exact .group hopening ih hclosing
  | unquantified _ ih => exact .unquantified ih
  | quantified _ hq ih =>
    rw [List.map_append]
    exact .quantified ih (hq.moved f)
  | plain _ ih => exact .plain ih
  | lookAhead hmark _ ih => exact .lookAhead hmark ih
  | @bar bar ts t _ hbar ih =>
    have hmark : (bar.moved f).lexeme = .bar := hbar
    rw [List.map_append]
    exact .bar ih hmark
  | @bars bar position ts us options t _ _ hbar ih₁ ih₂ =>
    have hmark : (bar.moved f).lexeme = .bar := hbar
    simp only [List.map_append]
    exact .bars ih₁ ih₂ hmark
  | single _ ih => exact .single ih
  | choice _ _ ih₁ ih₂ =>
    simp only [List.map_cons, List.map_append, List.map_nil, Tree.moved, Tree.movedAll_eq]
    exact .choice ih₁ ih₂
  | none => exact .none
  | more _ _ ih₁ ih₂ =>
    simp only [List.map_append]
    exact .more ih₁ ih₂
  | whole _ ih => exact .whole ih
  | trailing _ _ ih₁ ih₂ =>
    simp only [List.map_cons, List.map_append, List.map_nil, Tree.moved, Tree.movedAll_eq]
    exact .trailing ih₁ ih₂

namespace RuleTree

def moved (f : Position → Position) (r : RuleTree) : RuleTree :=
  ⟨r.name, f r.position, r.items.map (Tree.moved f)⟩

theorem unplaced_moved (f : Position → Position) (r : RuleTree) :
    (r.moved f).unplaced = r.unplaced := by
  have hitems : Tree.unplacedAll (r.items.map (Tree.moved f)) = Tree.unplacedAll r.items := by
    rw [← Tree.movedAll_eq, Tree.unplacedAll_movedAll]
  exact congrArg (RuleTree.mk r.name .start) hitems

/-- The tokens of one definition. -/
inductive DefinedBy (r : RuleTree) : List Token → Prop
  | intro {name define : Token} {us : List Token} (hname : name.lexeme = .name r.name)
      (hposition : name.position = r.position) (hdefine : define.lexeme = .define)
      (hitems : Phrase .items us r.items) : DefinedBy r (name :: define :: us)

theorem DefinedBy.moved (f : Position → Position) {r : RuleTree} {ts : List Token}
    (h : r.DefinedBy ts) : (r.moved f).DefinedBy (ts.map (Token.moved f)) := by
  obtain ⟨hname, hposition, hdefine, hitems⟩ := h
  exact ⟨hname, congrArg f hposition, hdefine, hitems.moved f⟩

end RuleTree

namespace Definitions

variable {ts us : List Token} {rules : List RuleTree} {groups : List (List Token)}

theorem concat {r : RuleTree} (h : Definitions ts rules) (hr : r.DefinedBy us) :
    Definitions (ts ++ us) (rules ++ [r]) := by
  obtain ⟨hname, hposition, hdefine, hitems⟩ := hr
  have hmore := h.more hname hdefine hitems
  rwa [hposition] at hmore

theorem append (h : Definitions ts rules) {rules' : List RuleTree}
    (hgroups : List.Forall₂ RuleTree.DefinedBy rules' groups) :
    Definitions (ts ++ groups.flatten) (rules ++ rules') := by
  induction hgroups generalizing ts rules with
  | nil => simpa using h
  | cons hr _ ih => simpa using ih (h.concat hr)

theorem exists_groups (h : Definitions ts rules) :
    ∃ groups, ts = groups.flatten ∧ List.Forall₂ RuleTree.DefinedBy rules groups := by
  induction h with
  | none => exact ⟨[], rfl, .nil⟩
  | @more name define word ts us rules items _ hname hdefine hitems ih =>
    obtain ⟨groups, rfl, hgroups⟩ := ih
    refine ⟨groups ++ [name :: define :: us], by simp, List.rel_append hgroups ?_⟩
    exact .cons ⟨hname, rfl, hdefine, hitems⟩ .nil

end Definitions

end Ebnf
