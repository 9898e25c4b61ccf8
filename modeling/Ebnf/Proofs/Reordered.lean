import Ebnf.Proofs.Renaming
import Mathlib.Data.List.Perm.Basic

/-! The order of the definitions. The same definitions in another order, and so at other places of
a source, make a grammar that differs in its numbers alone: what stands at some place of a rule in
the one grammar stands at that place of the rule in the other one. -/

namespace Ebnf

deriving instance DecidableEq for CharClass, Leaf, Tag

namespace Tree

mutual

def decEq : (s t : Tree) → Decidable (s = t)
  | leaf l tag, leaf l' tag' => decidable_of_iff (l = l' ∧ tag = tag') (by rw [leaf.injEq])
  | group items tag, group items' tag' =>
    have := decEqAll items items'
    decidable_of_iff (items = items' ∧ tag = tag') (by rw [group.injEq])
  | choice options position, choice options' position' =>
    have := decEqAll options options'
    decidable_of_iff (options = options' ∧ position = position') (by rw [choice.injEq])
  | lookAhead positive t position, lookAhead positive' t' position' =>
    have := decEq t t'
    decidable_of_iff (positive = positive' ∧ t = t' ∧ position = position')
      (by rw [lookAhead.injEq])
  | leaf _ _, group _ _ | leaf _ _, choice _ _ | leaf _ _, lookAhead _ _ _
  | group _ _, leaf _ _ | group _ _, choice _ _ | group _ _, lookAhead _ _ _
  | choice _ _, leaf _ _ | choice _ _, group _ _ | choice _ _, lookAhead _ _ _
  | lookAhead _ _ _, leaf _ _ | lookAhead _ _ _, group _ _ | lookAhead _ _ _, choice _ _ =>
    isFalse nofun

def decEqAll : (ss ts : List Tree) → Decidable (ss = ts)
  | [], [] => isTrue rfl
  | s :: ss, t :: ts =>
    have := decEq s t
    have := decEqAll ss ts
    decidable_of_iff (s = t ∧ ss = ts) (by rw [List.cons.injEq])
  | [], _ :: _ | _ :: _, [] => isFalse nofun

end

instance : DecidableEq Tree := decEq

mutual

def unplaced : Tree → Tree
  | leaf l tag => leaf l { tag with position := .start }
  | group items tag => group (unplacedAll items) { tag with position := .start }
  | choice options _ => choice (unplacedAll options) .start
  | lookAhead positive operand _ => lookAhead positive operand.unplaced .start

def unplacedAll : List Tree → List Tree
  | [] => []
  | t :: ts => t.unplaced :: unplacedAll ts

end

theorem unplacedAll_eq (ts : List Tree) : unplacedAll ts = ts.map unplaced := by
  induction ts with
  | nil => rfl
  | cons t ts ih => exact congrArg (t.unplaced :: ·) ih

theorem parts_unplaced (t : Tree) : t.unplaced.parts = t.parts.map unplaced := by
  cases t with
  | leaf | lookAhead => rfl
  | group items => exact unplacedAll_eq items
  | choice options => exact unplacedAll_eq options

theorem sort_unplaced (t : Tree) : t.unplaced.sort = t.sort := by
  cases t <;> rfl

mutual

theorem references_unplaced : ∀ t : Tree,
    t.unplaced.references.map Prod.snd = t.references.map Prod.snd
  | leaf l tag => by cases l <;> rfl
  | group items _ | choice items _ => references_unplacedAll items
  | lookAhead _ operand _ => references_unplaced operand

theorem references_unplacedAll : ∀ ts : List Tree,
    (referencesOf (unplacedAll ts)).map Prod.snd = (referencesOf ts).map Prod.snd
  | [] => rfl
  | t :: ts => by
    rw [unplacedAll, referencesOf, referencesOf, List.map_append, List.map_append,
      references_unplaced t, references_unplacedAll ts]

end

end Tree

deriving instance DecidableEq for RuleTree

namespace RuleTree

def unplaced (r : RuleTree) : RuleTree := ⟨r.name, .start, Tree.unplacedAll r.items⟩

/-- The same definitions in some order, wherever they stand. -/
def Reorders (trees trees' : List RuleTree) : Prop :=
  (trees.map unplaced).Perm (trees'.map unplaced)

instance (trees trees' : List RuleTree) : Decidable (Reorders trees trees') :=
  inferInstanceAs (Decidable (List.Perm _ _))

variable {trees trees' : List RuleTree}

theorem Reorders.symm (h : Reorders trees trees') : Reorders trees' trees := List.Perm.symm h

theorem Reorders.exists_mem (h : Reorders trees trees') {r : RuleTree} (hr : r ∈ trees) :
    ∃ r' ∈ trees', r'.unplaced = r.unplaced :=
  List.mem_map.1 ((List.Perm.mem_iff h).1 (List.mem_map_of_mem hr))

theorem Reorders.names (h : Reorders trees trees') :
    (trees.map name).Perm (trees'.map name) := by
  have hnames := List.Perm.map name h
  rwa [List.map_map, List.map_map] at hnames

theorem names_of_unplaced_eq {r r' : RuleTree} (h : r.unplaced = r'.unplaced) :
    r.name = r'.name := by
  have hname : r.unplaced.name = r'.unplaced.name := congrArg name h
  exact hname

theorem references_of_unplaced_eq {r r' : RuleTree} (h : r.unplaced = r'.unplaced) :
    r.references.map Prod.snd = r'.references.map Prod.snd := by
  have hitems : Tree.unplacedAll r.items = Tree.unplacedAll r'.items := congrArg items h
  unfold references
  rw [← Tree.references_unplacedAll, hitems, Tree.references_unplacedAll]

end RuleTree

theorem forall₂_of_map_eq {α α' β β' γ : Type} {R : α → β → Prop} {R' : α' → β' → Prop}
    {f : α → γ} {f' : α' → γ} {as : List α} {as' : List α'} {bs : List β} {bs' : List β'}
    (h : List.Forall₂ R as bs) (h' : List.Forall₂ R' as' bs') (hmap : as.map f = as'.map f') :
    List.Forall₂ (fun b b' => ∃ a a', f a = f' a' ∧ R a b ∧ R' a' b') bs bs' := by
  induction h generalizing as' bs' with
  | nil =>
    obtain rfl : as' = [] := List.map_eq_nil_iff.1 hmap.symm
    cases h'
    exact .nil
  | cons hr _ ih =>
    cases h' with
    | nil => cases hmap
    | cons hr' hrest =>
      obtain ⟨hfirst, hmap⟩ := List.cons.inj hmap
      exact .cons ⟨_, _, hfirst, hr, hr'⟩ (ih hrest hmap)

namespace Grammar

variable {g g' : Grammar} {trees trees' : List RuleTree} {settings settings' : EngineSettings}

/-- Nodes that show the same tree or the same definition, wherever it stands. -/
inductive Counterparts (g g' : Grammar) : NodeId → NodeId → Prop
  | tree {t t' : Tree} {id id' : NodeId} : t.unplaced = t'.unplaced → g.Shows t id →
      g'.Shows t' id' → Counterparts g g' id id'
  | rule {r r' : RuleTree} {id id' : NodeId} : r.unplaced = r'.unplaced →
      g.ShowsRule (r.name, id) r → g'.ShowsRule (r'.name, id') r' → Counterparts g g' id id'

theorem Counterparts.kind {id id' : NodeId} (h : g.Counterparts g' id id') :
    (g.graph.node id).kind.unnumbered = (g'.graph.node id').kind.unnumbered := by
  cases h with
  | @tree t t' _ _ hsame ht ht' =>
    rw [ht.unnumbered_eq, ht'.unnumbered_eq, ← t.sort_unplaced, hsame, t'.sort_unplaced]
  | rule hsame hr hr' =>
    obtain ⟨-, ids, hk, -⟩ := hr
    obtain ⟨-, ids', hk', -⟩ := hr'
    rw [hk, hk', RuleTree.names_of_unplaced_eq hsame]
    rfl

theorem Counterparts.children {id id' : NodeId} (h : g.Counterparts g' id id') :
    List.Forall₂ (g.Counterparts g') (g.graph.node id).kind.children
      (g'.graph.node id').kind.children := by
  have below : ∀ {ts ts' : List Tree} {ids ids' : List NodeId}, ts.map Tree.unplaced =
      ts'.map Tree.unplaced → List.Forall₂ g.Shows ts ids → List.Forall₂ g'.Shows ts' ids' →
        List.Forall₂ (g.Counterparts g') ids ids' := by
    intro ts ts' ids ids' hsame hts hts'
    refine (forall₂_of_map_eq hts hts' hsame).imp ?_
    rintro id id' ⟨t, t', hsame, ht, ht'⟩
    exact .tree hsame ht ht'
  cases h with
  | @tree t t' _ _ hsame ht ht' =>
    refine below ?_ ht.children ht'.children
    rw [← t.parts_unplaced, hsame, t'.parts_unplaced]
  | @rule r r' _ _ hsame hr hr' =>
    refine below ?_ hr.children hr'.children
    have hitems : Tree.unplacedAll r.items = Tree.unplacedAll r'.items :=
      congrArg RuleTree.items hsame
    rwa [Tree.unplacedAll_eq, Tree.unplacedAll_eq] at hitems

/-- The node of a rule has a counterpart where the other grammar has its definition, too. -/
theorem exists_counterpart_root (h : ofTrees trees settings = .ok g)
    (h' : ofTrees trees' settings' = .ok g') (horder : RuleTree.Reorders trees trees')
    (hnames : (trees'.map RuleTree.name).Nodup) {rule : String} {root : NodeId}
    (hroot : g.rules.lookup rule = some root) :
    ∃ root', g'.rules.lookup rule = some root' ∧ g.Counterparts g' root root' := by
  have hmem := mem_of_lookup_eq_some hroot
  obtain ⟨r, hr, hshows⟩ := exists_mem_of_forall₂ (showsRule_ofTrees h) hmem
  obtain ⟨r', hr', hsame⟩ := horder.exists_mem hr
  obtain ⟨⟨rule', root'⟩, hmem', hshows'⟩ :=
    exists_mem_of_forall₂ (showsRule_ofTrees h').flip hr'
  obtain rfl : rule = r.name := hshows.1
  obtain rfl : rule' = r'.name := hshows'.1
  rw [RuleTree.names_of_unplaced_eq hsame] at hmem'
  refine ⟨root', lookup_eq_some_of_mem ?_ hmem', .rule hsame.symm hshows hshows'⟩
  show g'.ruleNames.Nodup
  rwa [ruleNames_ofTrees h']

theorem Counterparts.symm {id id' : NodeId} (h : g.Counterparts g' id id') :
    g'.Counterparts g id' id := by
  cases h with
  | tree hsame ht ht' => exact .tree hsame.symm ht' ht
  | rule hsame hr hr' => exact .rule hsame.symm hr' hr

theorem isRenaming_of_reorders (h : ofTrees trees settings = .ok g)
    (h' : ofTrees trees' settings' = .ok g') (horder : RuleTree.Reorders trees trees')
    (hnames : (trees.map RuleTree.name).Nodup) : g.IsRenaming g' (g.Counterparts g') where
  root rule := by
    have hnames' := horder.names.nodup_iff.1 hnames
    cases hroot : g.rules.lookup rule with
    | some root =>
      obtain ⟨root', hroot', hr⟩ := exists_counterpart_root h h' horder hnames' hroot
      rw [hroot']
      exact .some hr
    | none =>
      -- what the other grammar defines, this one defines as well
      cases hroot' : g'.rules.lookup rule with
      | none => exact .none
      | some root' =>
        obtain ⟨root, hsome, -⟩ := exists_counterpart_root h' h horder.symm hnames hroot'
        cases hroot.symm.trans hsome
  kind hr := hr.kind
  children hr := hr.children

theorem exists_ofTrees (h : ofTrees trees settings = .ok g)
    (horder : RuleTree.Reorders trees trees') (settings' : EngineSettings) :
    ∃ g', ofTrees trees' settings' = .ok g' := by
  have hnamed : ∀ x ∈ trees'.flatMap RuleTree.references,
      ¬((RuleTree.index 0 trees').lookup x.2).isNone = true := by
    intro x hx
    obtain ⟨r', hr', hx⟩ := List.mem_flatMap.1 hx
    obtain ⟨r, hr, hsame⟩ := horder.symm.exists_mem hr'
    have hname : x.2 ∈ r.references.map Prod.snd := by
      rw [RuleTree.references_of_unplaced_eq hsame]
      exact List.mem_map_of_mem hx
    obtain ⟨y, hy, heq⟩ := List.mem_map.1 hname
    have hdefined := (ofTrees_eq_ok h).1 r hr y hy
    rw [heq] at hdefined
    obtain ⟨id, hid⟩ := Option.isSome_iff_exists.1 hdefined
    have hmem : x.2 ∈ trees.map RuleTree.name := by
      rw [← RuleTree.map_fst_index 0]
      exact List.mem_map_of_mem (mem_of_lookup_eq_some hid)
    rw [horder.names.mem_iff, ← RuleTree.map_fst_index 0] at hmem
    obtain ⟨⟨_, id'⟩, hentry, rfl⟩ := List.mem_map.1 hmem
    intro hnone
    have hne := List.lookup_eq_none_iff.1 (Option.isNone_iff_eq_none.1 hnone) _ hentry
    simp at hne
  have hfind := List.find?_eq_none.2 hnamed
  unfold ofTrees
  dsimp only
  split
  · next hsome => cases hfind.symm.trans hsome
  · exact ⟨_, rfl⟩

theorem IsForest.exists_place (hg : g.IsForest) {id : NodeId} (hid : id < g.graph.size) :
    ∃ rule path, g.nodeAt rule path = some id := by
  obtain ⟨root, ⟨⟨rule, hr⟩, hdown⟩, -⟩ := hg.existsUnique_root hid
  obtain ⟨path, hpath⟩ := Graph.exists_descend hdown
  exact ⟨rule, path, by rw [nodeAt, lookup_eq_some_of_mem hg.names hr, Option.bind_some, hpath]⟩

/-- The finite rules and the escapes of every source that is accepted are exact. Another order of
its definitions, from whatever source, leaves the same rules finite and gives every alternative the
same escapes. -/
theorem parse_exact {source : String} (h : parse source settings = .ok g) :
    g.IsExact ∧
    (∀ id < g.graph.size, ∃ rule path, g.nodeAt rule path = some id) ∧
    ∀ trees trees', RuleTree.parse source = .ok trees → RuleTree.Reorders trees trees' →
      ∃ g', ofTrees trees' settings = .ok g' ∧
        (∀ source', RuleTree.parse source' = .ok trees' → parse source' settings = .ok g') ∧
        (∀ rule, (g.rules.lookup rule).map g.graph.isFinite =
          (g'.rules.lookup rule).map g'.graph.isFinite) ∧
        g.escapesAt = g'.escapesAt := by
  have hg := isPrepared_parse h
  refine ⟨hg.isExact (nodup_ruleNames h), fun id hid => (isForest_parse h).exists_place hid, ?_⟩
  intro trees trees' htrees horder
  have hmade : ofTrees trees settings = .ok g := by
    rw [parse, htrees] at h
    exact h
  obtain ⟨g', hmade'⟩ := exists_ofTrees hmade horder settings
  have hg' := isPrepared_ofTrees hmade'
  have hrenames := isRenaming_of_reorders hmade hmade' horder (RuleTree.nodup_names_parse htrees)
  refine ⟨g', hmade', fun source' htrees' => ?_, hrenames.isFinite_eq hg hg', ?_⟩
  · rw [parse, htrees']
    exact hmade'
  · exact hrenames.escapesAt_eq hg hg'

/-- Two of the rules are finite, and of the options of the alternative the second one is an escape,
whether the rules are defined from the top down or from the bottom up. -/
theorem parse_exact_reordered : ∃ g g',
    parse "T ::= I  I ::= (\"[\" I \"]\") | L  L ::= \"x\" D?  D ::= [0-9]" .standard = .ok g ∧
    parse "D ::= [0-9]  L ::= \"x\" D?  I ::= (\"[\" I \"]\") | L  T ::= I" .standard = .ok g' ∧
    g.IsExact ∧ g.rules = [("T", 0), ("I", 2), ("L", 9), ("D", 12)] ∧
    ¬g.IsEndless "L" ∧ g.nodeAt "I" [0, 1] = some 8 ∧ g'.nodeAt "I" [0, 1] = some 11 ∧
    (g.rules.lookup "T").map g.graph.isFinite = (g'.rules.lookup "T").map g'.graph.isFinite ∧
    (g.escapesAt "I" [0]).isSome ∧ g.escapesAt "I" [0] = g'.escapesAt "I" [0] := by
  let source := "T ::= I  I ::= (\"[\" I \"]\") | L  L ::= \"x\" D?  D ::= [0-9]"
  let source' := "D ::= [0-9]  L ::= \"x\" D?  I ::= (\"[\" I \"]\") | L  T ::= I"
  have hfacts : (parse source .standard).toOption.any (fun g =>
      g.rules = [("T", 0), ("I", 2), ("L", 9), ("D", 12)] && g.graph.isFinite 9 &&
        g.nodeAt "I" [0, 1] = some 8 && (g.escapesAt "I" [0]).isSome) := by
    decide +kernel
  have hfacts' : (parse source' .standard).toOption.any (fun g' =>
      g'.nodeAt "I" [0, 1] = some 11) := by
    decide +kernel
  have horder : (RuleTree.parse source).toOption.any (fun trees =>
      (RuleTree.parse source').toOption.any fun trees' =>
        decide (RuleTree.Reorders trees trees')) := by
    decide +kernel
  obtain ⟨g, hparse, hfacts⟩ := (Option.any_eq_true _ _).1 hfacts
  simp only [Bool.and_eq_true, decide_eq_true_eq] at hfacts
  obtain ⟨⟨⟨hrules, hleaf⟩, hnode⟩, hsome⟩ := hfacts
  obtain ⟨trees, htrees, horder⟩ := (Option.any_eq_true _ _).1 horder
  obtain ⟨trees', htrees', horder⟩ := (Option.any_eq_true _ _).1 horder
  have hparse := toOption_eq_some.1 hparse
  obtain ⟨hexact, -, hreordered⟩ := parse_exact hparse
  obtain ⟨g', -, hparse', hfinite, hescapes⟩ :=
    hreordered trees trees' (toOption_eq_some.1 htrees) (of_decide_eq_true horder)
  have hparse' := hparse' source' (toOption_eq_some.1 htrees')
  have hnode' : g'.nodeAt "I" [0, 1] = some 11 := by
    rw [hparse'] at hfacts'
    exact of_decide_eq_true hfacts'
  have hendless : ¬g.IsEndless "L" := by
    obtain ⟨rule, hmem, hends⟩ := hexact.finite.1 hleaf
    rw [hrules] at hmem
    obtain rfl : rule = "L" := by simpa using hmem
    exact hends
  exact ⟨g, g', hparse, hparse', hexact, hrules, hendless, hnode, hnode', hfinite "T", hsome,
    congrFun (congrFun hescapes "I") [0]⟩

end Grammar

end Ebnf
