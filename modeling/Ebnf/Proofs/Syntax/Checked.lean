import Ebnf.Proofs.Syntax.Nested
import Ebnf.Proofs.Chance.Draw

/-! What reading a source has checked of its trees, and so of the nodes of its grammar: no minimum
is above its maximum, every character class has characters, and every alternative has options. -/

namespace Ebnf

def Repetition.IsProper (r : Repetition) : Prop := ∀ max, r.max = some max → r.min ≤ max

theorem Mark.isProper_repetition {m : Mark} {r : Repetition} (h : m.repetition = .ok r) :
    r.IsProper := by
  cases m with
  | optional | oneOrMore | any =>
    cases h
    rintro max ⟨⟩ <;> decide
  | counted text =>
    simp only [repetition] at h
    split at h
    · split at h
      · cases h
      · next r' _ hproper =>
        cases h
        intro max hmax
        rw [hmax] at hproper
        simpa using hproper
    · cases h

theorem Repetition.isProper_once : once.IsProper := by
  rintro max ⟨⟩
  exact Nat.le_refl 1

namespace Tree

/-- What is checked of the first node of a tree. -/
def IsSound : Tree → Prop
  | leaf l tag => tag.repetition.IsProper ∧ ∀ set, l = .charClass set → set.IsSound
  | group _ tag => tag.repetition.IsProper
  | choice options _ => options ≠ []
  | lookAhead _ _ _ => True

def IsChecked (t : Tree) : Prop := ∀ s, Within s t → s.IsSound

end Tree

theorem Lexeme.Spells.isSound {lexeme : Lexeme} {l : Leaf} (h : lexeme.Spells l)
    {set : CharClass} (hl : l = .charClass set) : set.IsSound := by
  cases h with
  | charClass hparse =>
    cases hl
    exact CharClass.isSound_parse hparse
  | _ => cases hl

theorem Tree.keeps_isSound : Phrase.Keeps Tree.IsSound where
  leaf hspells := ⟨Repetition.isProper_once, fun _ => hspells.isSound⟩
  group := Repetition.isProper_once
  quantified hsound hq := by
    have proper : ∀ {tag tag' : Tag} {q : Lexeme}, tag.Quantified q tag' →
        tag'.repetition.IsProper := by
      rintro _ _ _ ⟨hrepetition, -⟩
      exact Mark.isProper_repetition hrepetition
    cases hq with
    | leaf htag => exact ⟨proper htag, hsound.2⟩
    | group htag => exact proper htag
  choice hne _ := hne
  lookAhead _ := trivial

theorem RuleTree.isChecked_parse {source : String} {rules : List RuleTree}
    (h : parse source = .ok rules) : ∀ r ∈ rules, ∀ t ∈ r.items, t.IsChecked :=
  everywhere_parse Tree.keeps_isSound h

/-- What reading a source has checked of a node, whose bounds are still those declared. -/
structure Node.IsFresh (n : Node) : Prop where
  repetition : n.repetition.IsProper
  yield : n.yield = n.repetition.yield
  charClass {set : CharClass} : n.kind = .charClass set → set.IsSound
  choice {options : List NodeId} {weights escapes : Distribution} :
    n.kind = .choice options weights escapes → options ≠ []

namespace Grammar

theorem isFresh_laid {targets : String → Option NodeId} {trees : List RuleTree} {stop id : Nat}
    {n : Node} (htrees : ∀ r ∈ trees, ∀ t ∈ r.items, t.IsChecked)
    (h : RuleTree.Laid targets trees stop id n) : n.IsFresh := by
  cases h with
  | rule => exact ⟨Repetition.isProper_once, rfl, nofun, nofun⟩
  | @tree r t s parent first hr ht hw =>
    have hsound := htrees r hr t ht s hw
    cases s with
    | leaf l tag =>
      refine ⟨hsound.1, rfl, fun {set} hk => hsound.2 set ?_, fun hk => ?_⟩
      · cases l <;> cases hk
        rfl
      · cases l <;> cases hk
    | group items tag => exact ⟨hsound, rfl, nofun, nofun⟩
    | choice options position =>
      refine ⟨Repetition.isProper_once, rfl, nofun, fun {ids _ _} hk => ?_⟩
      obtain ⟨rfl, -, -⟩ := NodeKind.choice.inj hk
      cases options with
      | nil => exact absurd rfl hsound
      | cons option options => exact List.cons_ne_nil _ _
    | lookAhead positive operand position => exact ⟨Repetition.isProper_once, rfl, nofun, nofun⟩

theorem isFresh_parse {source : String} {settings : EngineSettings} {g : Grammar}
    (h : parse source settings = .ok g) (id : Nat) : (g.graph.node id).IsFresh := by
  obtain ⟨trees, hparse, htrees⟩ := exists_trees h
  by_cases hid : id < g.graph.size
  · have hfresh := isFresh_laid (RuleTree.isChecked_parse hparse) (exists_laid htrees hid)
    obtain ⟨halike, hyield⟩ := node_ofTrees htrees id
    refine ⟨halike.repetition ▸ hfresh.repetition, ?_, fun hk => ?_, fun hk => ?_⟩
    · rw [hyield, halike.repetition]
      exact hfresh.yield
    · exact hfresh.charClass (kind_laidOut htrees hk rfl)
    · obtain ⟨weights, escapes, hlaid⟩ :=
        NodeKind.exists_of_bare_choice (halike.kind.symm.trans (congrArg _ hk))
      exact hfresh.choice hlaid
  · rw [Graph.node_of_size_le (Nat.not_lt.1 hid)]
    exact ⟨Repetition.isProper_once, rfl, nofun, nofun⟩

end Grammar

end Ebnf
