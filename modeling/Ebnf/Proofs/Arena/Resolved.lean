import Ebnf.Proofs.Arena.Replayed
import Ebnf.Proofs.Configured
import Ebnf.Proofs.Prepared

/-! The passes over a graph that has been built. Linking goes through the nodes in their order,
which is that of the source, so it ends with the first reference to no rule or with all of them
linked; the distributions of one alternative do not depend on those of another. So the graph and the
warnings are those of the grammar that is laid out from its rules. -/

namespace Ebnf

/-- A node that points, if it is a reference, at the rule that it names. -/
def Node.linked (rules : List (String × NodeId)) (n : Node) : Except GrammarError Node :=
  match n.kind with
  | .reference rule _ =>
    match rules.lookup rule with
    | some root => .ok { n with kind := .reference rule (some root) }
    | none => .error (.link n.position rule)
  | _ => .ok n

def checkReferences (rules : List (String × NodeId)) (refs : List (Position × String)) :
    Except GrammarError Unit :=
  match refs.find? fun (_, rule) => (rules.lookup rule).isNone with
  | some (position, rule) => .error (.link position rule)
  | none => .ok ()

variable {rules : List (String × NodeId)}

theorem checkReferences_append (refs more : List (Position × String)) :
    checkReferences rules (refs ++ more) =
      checkReferences rules refs >>= fun _ => checkReferences rules more := by
  rw [checkReferences, List.find?_append, checkReferences]
  cases refs.find? fun (_, rule) => (rules.lookup rule).isNone <;> rfl

namespace Graph

theorem resolve_ofNodes {as bs : List Node} {n : Node} {id : Nat} (h : as.length = id) :
    resolve rules (ofNodes (as ++ n :: bs)) id =
      (n.linked rules).map fun n => ofNodes (as ++ n :: bs) := by
  rw [resolve, node_ofNodes h, Node.linked]
  cases hk : n.kind with
  | reference rule target =>
    dsimp only
    cases rules.lookup rule with
    | none => rfl
    | some root => exact congrArg Except.ok (modify_ofNodes h _)
  | _ => rfl

theorem foldlM_resolve (as bs : List Node) :
    (List.range' as.length bs.length).foldlM (resolve rules) (ofNodes (as ++ bs)) =
      (bs.mapM (Node.linked rules)).map fun ns => ofNodes (as ++ ns) := by
  induction bs generalizing as with
  | nil => simp [Except.map, pure, Except.pure]
  | cons n bs ih =>
    rw [List.length_cons, List.range'_succ, List.foldlM_cons, resolve_ofNodes rfl, List.mapM_cons]
    cases n.linked rules with
    | error e => rfl
    | ok m =>
      have hnext := ih (as ++ [m])
      rw [List.length_append, List.length_singleton, List.append_assoc] at hnext
      simp only [Except.map, bind, Except.bind] at hnext ⊢
      rw [List.singleton_append] at hnext
      rw [hnext]
      cases bs.mapM (Node.linked rules) <;> simp [pure, Except.pure]

theorem resolveNames_ofNodes (nodes : List Node) :
    (ofNodes nodes).resolveNames rules = (nodes.mapM (Node.linked rules)).map ofNodes := by
  have hfold := @foldlM_resolve rules [] nodes
  have hsize : (ofNodes nodes).size = nodes.length := List.size_toArray
  rw [resolveNames, List.range_eq_range', hsize]
  exact hfold

end Graph

theorem mapM_append_of {as bs ms ns : List Node} {x y : Except GrammarError Unit}
    (has : as.mapM (Node.linked rules) = x.map fun _ => ms)
    (hbs : bs.mapM (Node.linked rules) = y.map fun _ => ns) :
    (as ++ bs).mapM (Node.linked rules) = (x >>= fun _ => y).map fun _ => ms ++ ns := by
  rw [List.mapM_append, has, hbs]
  cases x <;> cases y <;> rfl

theorem mapM_cons_of {n m : Node} {bs ns : List Node} {x y : Except GrammarError Unit}
    (hn : n.linked rules = x.map fun _ => m)
    (hbs : bs.mapM (Node.linked rules) = y.map fun _ => ns) :
    (n :: bs).mapM (Node.linked rules) = (x >>= fun _ => y).map fun _ => m :: ns := by
  rw [List.mapM_cons, hn, hbs]
  cases x <;> cases y <;> rfl

namespace Tree

def own : Tree → List (Position × String)
  | leaf (.reference rule) tag => [(tag.position, rule)]
  | _ => []

theorem referencesOf_append (ts us : List Tree) :
    referencesOf (ts ++ us) = referencesOf ts ++ referencesOf us := by
  induction ts with
  | nil => rfl
  | cons t ts ih => rw [List.cons_append, referencesOf, referencesOf, ih, List.append_assoc]

theorem references_eq (t : Tree) :
    t.references = referencesOf t.lead ++ (t.own ++ referencesOf t.rest) := by
  cases t with
  | leaf l tag => cases l <;> rfl
  | group items tag => rfl
  | choice options position =>
    have hown : (choice options position).own = [] := rfl
    rw [hown, List.nil_append, ← referencesOf_append, lead, rest, List.take_append_drop, references]
  | lookAhead positive operand position => simp [references, own, lead, rest, parts, referencesOf]

theorem linked_head (parent : Option NodeId) (first : Nat) (t : Tree) :
    (t.head unlinked parent first).linked rules = (checkReferences rules t.own).map fun _ =>
      t.head (fun rule => rules.lookup rule) parent first := by
  cases t with
  | leaf l tag =>
    cases l with
    | reference rule =>
      have hfind : [(tag.position, rule)].find? (fun (_, rule) => (rules.lookup rule).isNone) =
          if (rules.lookup rule).isNone then some (tag.position, rule) else none := by
        cases hlookup : rules.lookup rule <;> simp [hlookup]
      rw [own, checkReferences, hfind]
      simp only [head, Tag.node, Leaf.kind, Node.linked]
      cases rules.lookup rule <;> rfl
    | _ => rfl
  | _ => rfl

/-- The nodes of a row of trees are linked unless one of its references is to no rule. -/
theorem linked_layoutAll (parent next : Nat) (ts : List Tree) :
    (layoutAll unlinked parent next ts).mapM (Node.linked rules) =
      (checkReferences rules (referencesOf ts)).map fun _ =>
        layoutAll (fun rule => rules.lookup rule) parent next ts := by
  induction ts using row_induction generalizing parent next with
  | nil => rfl
  | cons t ts hlead hrest hts =>
    have hbehind := mapM_cons_of (linked_head (some parent) next t)
      (hrest (t.top next) (t.top next + 1))
    have htree := mapM_append_of (hlead (t.top next) next) hbehind
    have hall := mapM_append_of htree (hts parent (next + t.size))
    rw [layoutAll, layoutAll, layout_eq, layout_eq, referencesOf, references_eq,
      checkReferences_append, checkReferences_append, checkReferences_append]
    exact hall

end Tree

theorem RuleTree.linked_layoutAll (next : Nat) (trees : List RuleTree) :
    (layoutAll unlinked next trees).mapM (Node.linked rules) =
      (checkReferences rules (trees.flatMap references)).map fun _ =>
        layoutAll (fun rule => rules.lookup rule) next trees := by
  induction trees generalizing next with
  | nil => rfl
  | cons r trees ih =>
    have hhead : (r.head next).linked rules = (Except.ok () : Except GrammarError Unit).map
      fun _ => r.head next := rfl
    have hrule := mapM_cons_of hhead (Tree.linked_layoutAll next (next + 1) r.items)
    have hall := mapM_append_of hrule (ih (next + r.size))
    rw [layoutAll, layoutAll, layout_eq, layout_eq, List.flatMap_cons, checkReferences_append]
    exact hall

namespace Graph

theorem ext_node {g g' : Graph} (hsize : g.size = g'.size)
    (hnode : ∀ id, g.node id = g'.node id) (hfinite : g.finiteRules = g'.finiteRules) : g = g' := by
  obtain ⟨nodes, finite⟩ := g
  obtain ⟨nodes', finite'⟩ := g'
  obtain rfl := hfinite
  have hnodes : nodes = nodes' := by
    refine Array.ext hsize fun id hid hid' => ?_
    simpa [node, hid, hid'] using hnode id
  rw [hnodes]

theorem node_modifyKind (g : Graph) (id : NodeId) (f : NodeKind → NodeKind) (other : NodeId)
    (h : id < g.size) : (g.modifyKind id f).node other =
      if other = id then { g.node other with kind := f (g.node other).kind } else g.node other := by
  by_cases heq : other = id
  · subst heq
    have hid : other < g.nodes.size := h
    simp [modifyKind, modify, node, hid, Array.getElem_modify_self]
  · rw [if_neg heq]
    exact (node_modify g id _ other).resolve_right fun hsame => heq hsame.1

theorem size_modifyKind (g : Graph) (id : NodeId) (f : NodeKind → NodeKind) :
    (g.modifyKind id f).size = g.size := by
  simp [modifyKind, modify, size]

theorem size_distribute (g : Graph) (id : NodeId) : (g.distribute id).size = g.size := by
  unfold distribute
  split
  · rw [setEscapes, size_modifyKind, setWeights, size_modifyKind]
  · rfl

theorem finiteRules_distribute (g : Graph) (id : NodeId) :
    (g.distribute id).finiteRules = g.finiteRules := by
  unfold distribute
  split <;> rfl

theorem node_distribute {g : Graph} {id : NodeId} (h : id < g.size) (other : NodeId) :
    (g.distribute id).node other =
      if other = id then { g.node other with kind := g.distributed (g.node other).kind }
      else g.node other := by
  unfold distribute
  cases hk : (g.node id).kind with
  | choice options weights escapes =>
    have hsize : id < (g.setWeights id (.uniform options.length)).size := by
      rwa [setWeights, size_modifyKind]
    dsimp only
    rw [setEscapes, node_modifyKind _ _ _ _ hsize, setWeights, node_modifyKind _ _ _ _ h]
    by_cases heq : other = id
    · subst heq
      simp [hk, distributed]
    · simp [heq]
  | _ =>
    dsimp only
    split
    · next heq =>
      subst heq
      rw [hk]
      simp [distributed, ← hk]
    · rfl

theorem distributed_congr {g g' : Graph} (hsize : g'.size = g.size)
    (hbare : ∀ id, (g'.node id).kind.bare = (g.node id).kind.bare)
    (hfinite : g'.finiteRules = g.finiteRules) : g'.distributed = g.distributed := by
  unfold distributed
  rw [isPotentiallyRecursive_congr hsize hbare hfinite]

theorem foldl_distribute_range (g : Graph) {i : Nat} (hi : i ≤ g.size) :
    ((List.range i).foldl distribute g).size = g.size ∧
      ((List.range i).foldl distribute g).finiteRules = g.finiteRules ∧
      ∀ id, ((List.range i).foldl distribute g).node id =
        if id < i then { g.node id with kind := g.distributed (g.node id).kind }
        else g.node id := by
  induction i with
  | zero => exact ⟨rfl, rfl, fun _ => rfl⟩
  | succ i ih =>
    obtain ⟨hsize, hfinite, hnode⟩ := ih (Nat.le_of_succ_le hi)
    rw [List.range_succ, List.foldl_append, List.foldl_cons, List.foldl_nil]
    generalize (List.range i).foldl distribute g = g' at hsize hfinite hnode
    have hbare : ∀ id, (g'.node id).kind.bare = (g.node id).kind.bare := by
      intro id
      rw [hnode]
      split
      · exact bare_distributed g _
      · rfl
    refine ⟨(size_distribute g' i).trans hsize, (finiteRules_distribute g' i).trans hfinite, ?_⟩
    intro id
    have hi' : i < g'.size := hsize ▸ hi
    rw [node_distribute hi', distributed_congr hsize hbare hfinite, hnode]
    by_cases heq : id = i
    · subst heq
      simp
    · have hiff : id < i + 1 ↔ id < i := ⟨fun h => Nat.lt_of_le_of_ne (Nat.le_of_lt_succ h) heq,
        Nat.lt_succ_of_lt⟩
      simp only [if_neg heq, hiff]

/-- Alternative by alternative, the distributions are those of the whole graph: those that are set
already change nothing about what can recurse. -/
theorem foldl_distribute (g : Graph) :
    (List.range g.size).foldl distribute g = g.withDistributions := by
  obtain ⟨hsize, hfinite, hnode⟩ := foldl_distribute_range g (Nat.le_refl _)
  refine ext_node (hsize.trans (size_withDistributions g).symm) (fun id => ?_) hfinite
  rw [hnode, node_withDistributions]
  split
  · rfl
  · next hid =>
    rw [node_of_size_le (Nat.not_lt.1 hid)]
    rfl

end Graph

namespace Grammar

theorem ofTrees_eq (trees : List RuleTree) (settings : EngineSettings) :
    ofTrees trees settings = validate (.ofNodes (RuleTree.layoutAll unlinked 0 trees))
      (RuleTree.index 0 trees) settings := by
  have hresolve := @Graph.resolveNames_ofNodes (RuleTree.index 0 trees)
    (RuleTree.layoutAll unlinked 0 trees)
  rw [RuleTree.linked_layoutAll, checkReferences] at hresolve
  unfold ofTrees validate
  rw [hresolve]
  dsimp only
  cases (trees.flatMap RuleTree.references).find? fun (_, rule) =>
      ((RuleTree.index 0 trees).lookup rule).isNone with
  | some x => rfl
  | none =>
    have hfinalize := Graph.foldl_distribute ((laidOut trees).withFiniteRules
      ((RuleTree.index 0 trees).map Prod.snd))
    rw [Graph.size_withFiniteRules] at hfinalize
    exact congrArg (fun graph => Except.ok (Grammar.mk graph _ _ _)) hfinalize.symm

theorem build_eq_parse {source : String} {settings : EngineSettings} {fuel : Nat}
    (hfuel : source.toList.length < fuel) :
    build fuel source settings = some ((parse source settings).mapError .grammar) := by
  rw [build, GraphParser.run_ofString hfuel, parse]
  cases RuleTree.parse source with
  | error e => rfl
  | ok trees =>
    exact congrArg (fun x => some (x.mapError ParserError.grammar)) (ofTrees_eq trees settings).symm

theorem build_of_parse {source : String} {settings : EngineSettings} {g : Grammar} {fuel : Nat}
    (h : parse source settings = .ok g) (hfuel : source.toList.length < fuel) :
    build fuel source settings = some (.ok g) := by
  rw [build_eq_parse hfuel, h, Except.mapError]

end Grammar

end Ebnf
