import Ebnf.Proofs.Escapes
import Ebnf.Proofs.Mirrored
import Ebnf.Proofs.Sections
import Ebnf.Proofs.Syntax.Checked

/-! A source in any order of its definitions. Wherever a definition is moved to, the grammar that
is read matches the same texts, says the same of those that it does not match, and generates the
same samples. -/

namespace Ebnf

/-- How often the first node of a tree occurs. -/
def Tree.repetition : Tree → Repetition
  | leaf _ tag | group _ tag => tag.repetition
  | choice _ _ | lookAhead _ _ _ => .once

theorem Tree.repetition_unplaced (t : Tree) : t.unplaced.repetition = t.repetition := by
  cases t <;> rfl

namespace Tree

mutual

theorem size_unplaced : ∀ t : Tree, t.unplaced.size = t.size
  | leaf _ _ => rfl
  | group items _ | choice items _ => congrArg (1 + ·) (sizes_unplacedAll items)
  | lookAhead _ operand _ => congrArg (1 + ·) (size_unplaced operand)

theorem sizes_unplacedAll : ∀ ts : List Tree, sizes (unplacedAll ts) = sizes ts
  | [] => rfl
  | t :: ts => by rw [unplacedAll, sizes, sizes, size_unplaced t, sizes_unplacedAll ts]

end

end Tree

namespace RuleTree

theorem sizes_eq_sum (rules : List RuleTree) :
    sizes rules = ((rules.map unplaced).map size).sum := by
  induction rules with
  | nil => rfl
  | cons r rules ih =>
    have hsize : r.unplaced.size = r.size := congrArg (1 + ·) (Tree.sizes_unplacedAll r.items)
    rw [sizes, ih, List.map_cons, List.map_cons, List.sum_cons, hsize]

theorem Reorders.sizes_eq {trees trees' : List RuleTree} (h : Reorders trees trees') :
    sizes trees = sizes trees' := by
  rw [sizes_eq_sum, sizes_eq_sum]
  exact (List.Perm.map size h).sum_eq

end RuleTree

namespace Grammar

variable {g g' : Grammar} {id id' : NodeId}

theorem Shows.repetition {t : Tree} (h : g.Shows t id) :
    (g.graph.node id).repetition = t.repetition := by
  cases t with
  | leaf l tag => exact h.2.2.1
  | group items tag =>
    obtain ⟨ids, -, htag, -⟩ := h
    exact htag.2.1
  | choice options position =>
    obtain ⟨ids, weights, escapes, -, htag, -⟩ := h
    exact htag.2.1
  | lookAhead positive operand position =>
    obtain ⟨o, -, htag, -⟩ := h
    exact htag.2.1

theorem Shows.reference {t : Tree} (h : g.Shows t id) {rule : String} {target : Option NodeId}
    (hk : (g.graph.node id).kind = .reference rule target) : target = g.rules.lookup rule := by
  cases t with
  | leaf l tag =>
    have hleaf := h.1.symm.trans hk
    cases l with
    | reference name =>
      obtain ⟨rfl, rfl⟩ := NodeKind.reference.inj hleaf
      rfl
    | _ => cases hleaf
  | group items tag =>
    obtain ⟨ids, hgroup, -⟩ := h
    cases hgroup.symm.trans hk
  | choice options position =>
    obtain ⟨ids, weights, escapes, hchoice, -⟩ := h
    cases hchoice.symm.trans hk
  | lookAhead positive operand position =>
    obtain ⟨o, hlook, -⟩ := h
    cases hlook.symm.trans hk

namespace Counterparts

theorem repetition (h : g.Counterparts g' id id') :
    (g.graph.node id).repetition = (g'.graph.node id').repetition := by
  cases h with
  | @tree t t' _ _ hsame ht ht' =>
    rw [ht.repetition, ht'.repetition, ← t.repetition_unplaced, hsame, t'.repetition_unplaced]
  | rule hsame hr hr' =>
    obtain ⟨-, ids, -, htag, -⟩ := hr
    obtain ⟨-, ids', -, htag', -⟩ := hr'
    exact htag.2.1.trans htag'.2.1.symm

theorem reference (h : g.Counterparts g' id id') {rule : String} {target : Option NodeId}
    (hk : (g.graph.node id).kind = .reference rule target) : target = g.rules.lookup rule := by
  cases h with
  | tree _ ht _ => exact ht.reference hk
  | rule _ hr _ =>
    obtain ⟨-, ids, hrule, -⟩ := hr
    cases hrule.symm.trans hk

end Counterparts

/-- Counterparts do the same in grammars as they are read. -/
theorem mirrors_of_isRenaming (h : g.IsRenaming g' (g.Counterparts g')) (hg : g.IsPrepared)
    (hg' : g'.IsPrepared) (hequal : g.WeighsEqually) (hequal' : g'.WeighsEqually)
    (hfresh : ∀ id, (g.graph.node id).IsFresh) (hfresh' : ∀ id, (g'.graph.node id).IsFresh) :
    g.graph.Mirrors g'.graph (g.Counterparts g') where
  kind {id id'} hr := by
    have hkind := h.kind hr
    have hchildren := h.children hr
    have hescapes := h.escapes_eq hg hg' hr
    cases hk : (g.graph.node id).kind with
    | reference rule target =>
      obtain ⟨target', hk'⟩ := NodeKind.exists_reference_of_unnumbered_eq hkind hk
      rw [hk', hr.reference hk, hr.symm.reference hk']
      have hroot := h.root rule
      have hfinite := h.isFinite_eq hg hg' rule
      generalize g.rules.lookup rule = root, g'.rules.lookup rule = root' at hroot hfinite ⊢
      cases hroot with
      | none => exact .unlinked rule
      | some hroot => exact .reference hroot (Option.some.inj hfinite)
    | choice options weights escapes =>
      obtain ⟨options', weights', escapes', hk'⟩ := NodeKind.exists_choice_of_unnumbered_eq hkind hk
      rw [hk, hk'] at hchildren hescapes
      obtain rfl := hequal hk
      obtain rfl := hequal' hk'
      obtain rfl := Option.some.inj hescapes
      have hlength : options.length = options'.length := hchildren.length_eq
      rw [hk', ← hlength]
      exact .choice hchildren
    | _ =>
      rw [hk] at hkind hchildren
      exact NodeKind.mirrors_of_unnumbered_eq hkind hchildren nofun nofun
  repetition hr := hr.repetition
  yield {id id'} hr := by rw [(hfresh id).yield, (hfresh' id').yield, hr.repetition]

/-- Cut a source that is accepted into its definitions and put these together again in any order,
with a line break behind each but the last. The result is accepted; for every rule and every text
matching returns on both sides or on neither, and says the same; and for every rule, settings and
draws both generate the same sample and leave the same state of chance. -/
theorem parse_anyOrder {source : String} {settings : EngineSettings} {trees : List RuleTree}
    (h : parse source settings = .ok g) (htrees : RuleTree.parse source = .ok trees)
    {order : List (List Char)} (horder : order.Perm (RuleTree.sections source.toList trees)) :
    ∃ g', parse (RuleTree.joined order) settings = .ok g' ∧
      (∀ rule text, (g.matchRule rule text).map (Option.map g.graph.report) =
        (g'.matchRule rule text).map (Option.map g'.graph.report)) ∧
      ∀ {σ : Type} (settings' : EngineSettings) (chance : Chance σ) (rule : String) (state : σ),
        { g with settings := settings' }.generate chance rule state =
          { g' with settings := settings' }.generate chance rule state := by
  obtain ⟨trees', htrees', hreorders⟩ := RuleTree.parse_joined htrees horder
  have hmade : ofTrees trees settings = .ok g := by
    rw [parse, htrees] at h
    exact h
  obtain ⟨g', hmade'⟩ := exists_ofTrees hmade hreorders settings
  have h' : parse (RuleTree.joined order) settings = .ok g' := by
    rw [parse, htrees']
    exact hmade'
  have hrenames := isRenaming_of_reorders hmade hmade' hreorders (RuleTree.nodup_names_parse htrees)
  have hmirrors := mirrors_of_isRenaming hrenames (isPrepared_parse h) (isPrepared_parse h')
    (weighsEqually_parse h) (weighsEqually_parse h') (isFresh_parse h) (isFresh_parse h')
  have hsize : g.graph.size = g'.graph.size := by
    rw [size_ofTrees hmade, size_ofTrees hmade']
    exact hreorders.sizes_eq
  refine ⟨g', h', fun rule text => ?_, fun settings' chance rule state => ?_⟩
  · have hroot := hrenames.root rule
    rw [matchRule, matchRule, root, root]
    generalize g.rules.lookup rule = root, g'.rules.lookup rule = root' at hroot ⊢
    cases hroot with
    | none => rfl
    | some hroot => exact congrArg Except.ok (hmirrors.matchText_eq hsize hroot text _ _)
  · have hroot := hrenames.root rule
    rw [generate, generate, root, root]
    dsimp only
    generalize g.rules.lookup rule = root, g'.rules.lookup rule = root' at hroot ⊢
    cases hroot with
    | none => rfl
    | some hroot =>
      have henough : g.graph.enoughToWrite settings' = g'.graph.enoughToWrite settings' := by
        rw [Graph.enoughToWrite, Graph.enoughToWrite, hsize]
      refine congrArg Except.ok ?_
      rw [henough]
      exact congrFun (hmirrors.generate_eq settings' chance _ hroot) state

/-- With comments between the definitions and behind the last one, which comes first now: the
numbers change, and all else stays. -/
theorem parse_anyOrder_reversed : ∃ g g',
    parse "T ::= I // top\nI ::= ('[' I ']') | L  /* one */ L ::= 'x' D?  D ::= [0-9] // end"
      .standard = .ok g ∧
    parse "D ::= [0-9] // end\nL ::= 'x' D?  \nI ::= ('[' I ']') | L  /* one */ \nT ::= I // top\n"
      .standard = .ok g' ∧
    g.rules = [("T", 0), ("I", 2), ("L", 9), ("D", 12)] ∧
    g'.rules = [("D", 0), ("L", 2), ("I", 5), ("T", 12)] ∧
    (g.matchRule "T" "[x1]").map (Option.map g.graph.report) =
      (g'.matchRule "T" "[x1]").map (Option.map g'.graph.report) ∧
    ∀ (settings : EngineSettings) (words : Words),
      { g with settings }.generate (Chance.ofWords words) "T" 0 =
        { g' with settings }.generate (Chance.ofWords words) "T" 0 := by
  let source := "T ::= I // top\nI ::= ('[' I ']') | L  /* one */ L ::= 'x' D?  D ::= [0-9] // end"
  let source' :=
    "D ::= [0-9] // end\nL ::= 'x' D?  \nI ::= ('[' I ']') | L  /* one */ \nT ::= I // top\n"
  have hfacts : (parse source .standard).toOption.any (fun g =>
      g.rules = [("T", 0), ("I", 2), ("L", 9), ("D", 12)]) = true := by decide +kernel
  have hfacts' : (parse source' .standard).toOption.any (fun g' =>
      g'.rules = [("D", 0), ("L", 2), ("I", 5), ("T", 12)]) = true := by decide +kernel
  have hjoined : (RuleTree.parse source).toOption.any (fun trees =>
      RuleTree.joined (RuleTree.sections source.toList trees).reverse = source') = true := by
    decide +kernel
  obtain ⟨g, hparse, hrules⟩ := (Option.any_eq_true _ _).1 hfacts
  obtain ⟨trees, htrees, hsource'⟩ := (Option.any_eq_true _ _).1 hjoined
  have hparse := toOption_eq_some.1 hparse
  obtain ⟨g', hparse', hmatch, hgenerate⟩ :=
    parse_anyOrder hparse (toOption_eq_some.1 htrees) (List.reverse_perm _)
  rw [of_decide_eq_true hsource'] at hparse'
  have hrules' : g'.rules = [("D", 0), ("L", 2), ("I", 5), ("T", 12)] := by
    rw [hparse'] at hfacts'
    exact of_decide_eq_true hfacts'
  exact ⟨g, g', hparse, hparse', of_decide_eq_true hrules, hrules', hmatch "T" "[x1]",
    fun settings words => hgenerate settings (Chance.ofWords words) "T" 0⟩

end Grammar

end Ebnf
