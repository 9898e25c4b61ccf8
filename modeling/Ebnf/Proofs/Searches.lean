import Ebnf.Proofs.Arena.Resolved
import Ebnf.Proofs.Forest
import Ebnf.Proofs.Walks

/-! Searches from a node, down or up. A search looks at a node and goes on at its children, or at
its parent, so in a forest it ends: as much fuel as there are nodes is enough, and with more of it
the same is found. -/

namespace Ebnf

theorem findSome?_congr {α β : Type} {f f' : α → Option β} {as : List α}
    (h : ∀ a ∈ as, f a = f' a) : as.findSome? f = as.findSome? f' := by
  have hsame := congrArg (List.findSome? fun found => found) (List.map_congr_left h)
  rw [List.findSome?_map, List.findSome?_map] at hsame
  exact hsame

namespace Graph

def findAt (g : Graph) (label : String) (find : NodeId → Option NodeId) (id : NodeId) :
    Option NodeId :=
  if (g.node id).label = some label then some id else (g.node id).kind.children.findSome? find

def referencesAt (g : Graph) (references : NodeId → List NodeId) (id : NodeId) : List NodeId :=
  match (g.node id).kind with
  | .reference _ target => target.toList
  | .lookAhead _ _ => []
  | kind => kind.children.flatMap references

/-- Whether a rule that is not finite is referenced, by what is found below the children. -/
def recursesAt (g : Graph) (recurses : NodeId → Bool) (id : NodeId) : Bool :=
  match (g.node id).kind with
  | .reference _ target => target.all fun t => !g.isFinite t
  | .lookAhead _ _ => false
  | kind => kind.children.any recurses

def enclosedAt (g : Graph) (enclosed : NodeId → Bool) (id : NodeId) : Bool :=
  match (g.node id).parent with
  | none => false
  | some p => (g.node p).kind.isChoice || enclosed p

def HasParent (g : Graph) (id p : NodeId) : Prop := (g.node id).parent = some p

variable {α : Type} {g : Graph} {next : NodeId → NodeId → Prop} {search : Nat → NodeId → α}
  {step : (NodeId → α) → NodeId → α}

structure IsSearch (next : NodeId → NodeId → Prop) (search : Nat → NodeId → α)
    (step : (NodeId → α) → NodeId → α) : Prop where
  succ (fuel : Nat) (id : NodeId) : search (fuel + 1) id = step (search fuel) id
  congr {find find' : NodeId → α} {id : NodeId} :
    (∀ c, next id c → find c = find' c) → step find id = step find' id

theorem isSearch_findWithin (g : Graph) (label : String) :
    IsSearch g.HasChild (g.findWithin label) (g.findAt label) where
  succ _ _ := rfl
  congr {_ _ id} h := congrArg (ite _ (some id)) (findSome?_congr h)

theorem isSearch_referencesWithin (g : Graph) :
    IsSearch g.HasChild g.referencesWithin g.referencesAt where
  succ _ _ := rfl
  congr {find find' id} h := by
    have hsame : (g.node id).kind.children.flatMap find =
        (g.node id).kind.children.flatMap find' := List.flatMap_congr h
    unfold referencesAt
    revert hsame
    cases (g.node id).kind <;> intro hsame <;> first | rfl | exact hsame

theorem isSearch_recursesWithin (g : Graph) :
    IsSearch g.HasChild g.recursesWithin g.recursesAt where
  succ _ _ := rfl
  congr {find find' id} h := by
    have hsame := congrArg (List.any · fun found => found) (List.map_congr_left h)
    rw [List.any_map, List.any_map] at hsame
    unfold recursesAt
    revert hsame
    cases (g.node id).kind <;> intro hsame <;> first | rfl | exact hsame

theorem isSearch_isEnclosedWithin (g : Graph) :
    IsSearch g.HasParent g.isEnclosedWithin g.enclosedAt where
  succ _ _ := rfl
  congr {find find' id} h := by
    unfold enclosedAt
    cases hp : (g.node id).parent with
    | none => rfl
    | some p => exact congrArg (_ || ·) (h p hp)

structure Ends (g : Graph) (search : Nat → NodeId → α) (step : (NodeId → α) → NodeId → α) :
    Prop where
  fuel {fuel : Nat} : g.size < fuel → search fuel = search (g.size + 1)
  step (id : NodeId) : search (g.size + 1) id = step (search (g.size + 1)) id

/-- Going down ends, going up ends, and so do the searches that go down and the one that goes up. -/
structure SearchesEnd (g : Graph) : Prop where
  down : WellFounded fun c id => g.HasChild id c
  up : WellFounded fun p c => (g.node c).parent = some p
  find (label : String) : g.Ends (g.findWithin label) (g.findAt label)
  references : g.Ends g.referencesWithin g.referencesAt
  recursion : g.Ends g.recursesWithin g.recursesAt
  enclosure : g.Ends g.isEnclosedWithin g.enclosedAt

end Graph

namespace Grammar

variable {g : Grammar}

theorem IsForest.wellFounded_down (hg : g.IsForest) :
    WellFounded fun c id => g.graph.HasChild id c := by
  have hinside : ∀ id : Nat, id < g.graph.size → Acc (fun c id => g.graph.HasChild id c) id :=
    fun id hid => acc_of_irrefl (P := fun id : NodeId => id < g.graph.size) (fun _ h => h)
      (fun _ _ _ hc => (hg.child hc).2) (fun id _ => hg.acyclic id) hid
  exact ⟨fun id => ⟨id, fun c hc => hinside c (hg.child hc).2⟩⟩

theorem IsForest.wellFounded_up (hg : g.IsForest) :
    WellFounded fun p c => (g.graph.node c).parent = some p := by
  have hswap : (fun c p => (g.graph.node c).parent = some p) = Function.swap g.graph.HasChild := by
    funext c p
    exact propext hg.parent
  have hirrefl : ∀ id, ¬Relation.TransGen (fun c p => (g.graph.node c).parent = some p) id id := by
    intro id hcycle
    rw [hswap] at hcycle
    exact hg.acyclic id (Relation.transGen_swap.1 hcycle)
  have hinside : ∀ id : Nat, id < g.graph.size →
      Acc (fun p c => (g.graph.node c).parent = some p) id :=
    fun id hid => acc_of_irrefl (P := fun id : NodeId => id < g.graph.size) (fun _ h => h)
      (fun _ _ _ hp => (hg.child (hg.parent.1 hp)).1) (fun id _ => hirrefl id) hid
  exact ⟨fun id => ⟨id, fun p hp => hinside p (hg.child (hg.parent.1 hp)).1⟩⟩

section

variable {α : Type} {next : NodeId → NodeId → Prop} {search : Nat → NodeId → α}
  {step : (NodeId → α) → NodeId → α}

theorem search_eq (hnext : WellFounded fun c id => next id c)
    (hin : ∀ {id c}, next id c → id < g.graph.size) (h : Graph.IsSearch next search step)
    {fuel fuel' id : Nat} (hfuel : g.rank next id ≤ fuel) (hfuel' : g.rank next id ≤ fuel') :
    search (fuel + 1) id = search (fuel' + 1) id := by
  -- a step asks for the next nodes only, and from these fewer nodes can be come to
  induction fuel generalizing fuel' id with
  | zero =>
    rw [h.succ, h.succ]
    refine h.congr fun c hc => ?_
    have hlt := rank_lt hnext (hin hc) hc
    omega
  | succ fuel ih =>
    rw [h.succ, h.succ]
    refine h.congr fun c hc => ?_
    have hlt := rank_lt hnext (hin hc) hc
    cases fuel' with
    | zero => omega
    | succ fuel' => exact ih (by omega) (by omega)

theorem ends_of_wellFounded (hnext : WellFounded fun c id => next id c)
    (hin : ∀ {id c}, next id c → id < g.graph.size) (h : Graph.IsSearch next search step) :
    g.graph.Ends search step where
  fuel {fuel} hfuel := by
    obtain ⟨fuel, rfl⟩ : ∃ n, fuel = n + 1 := ⟨fuel - 1, by omega⟩
    funext id
    have hle : g.rank next id ≤ g.graph.size := rank_le id
    exact search_eq hnext hin h (by omega) hle
  step id := by
    rw [h.succ]
    refine h.congr fun c hc => ?_
    have hlt := rank_lt hnext (hin hc) hc
    have hle : g.rank next id ≤ g.graph.size := rank_le id
    obtain ⟨n, hn⟩ : ∃ n, g.graph.size = n + 1 := ⟨g.graph.size - 1, by omega⟩
    have hbelow : search (n + 1) c = search (g.graph.size + 1) c :=
      search_eq hnext hin h (by omega) (by omega)
    rwa [← hn] at hbelow

end

theorem IsForest.searchesEnd (hg : g.IsForest) : g.graph.SearchesEnd where
  down := hg.wellFounded_down
  up := hg.wellFounded_up
  find label := ends_of_wellFounded hg.wellFounded_down (fun hc => (hg.child hc).1)
    (g.graph.isSearch_findWithin label)
  references := ends_of_wellFounded hg.wellFounded_down (fun hc => (hg.child hc).1)
    g.graph.isSearch_referencesWithin
  recursion := ends_of_wellFounded hg.wellFounded_down (fun hc => (hg.child hc).1)
    g.graph.isSearch_recursesWithin
  enclosure := ends_of_wellFounded hg.wellFounded_up (fun hp => (hg.child (hg.parent.1 hp)).2)
    g.graph.isSearch_isEnclosedWithin

/-- Built node by node, the graph of every source that is accepted is a forest of its rules in the
end, and all searches below and above its nodes end. -/
theorem parse_forest {source : String} {settings : EngineSettings}
    (h : parse source settings = .ok g) :
    (∀ fuel, source.toList.length < fuel → build fuel source settings = some (.ok g)) ∧
      g.IsForest ∧ g.graph.SearchesEnd :=
  ⟨fun _ => build_of_parse h, isForest_parse h, (isForest_parse h).searchesEnd⟩

/-- An alternative in a group and one in a rule, and a look-ahead below the first one. -/
theorem parse_forest_nested : ∃ g,
    build 54 "S ::= A (\"x\" | !B \"y\")\x7b2,3\x7d  A ::= \"a\" | B  B ::= \"b\"" .standard =
      some (.ok g) ∧ g.rules = [("S", 0), ("A", 8), ("B", 12)] ∧ g.graph.size = 14 ∧
      (g.graph.node 4).kind.children = [3, 5] ∧ g.graph.referencedRules 0 = [8] ∧ g.IsForest ∧
        g.graph.SearchesEnd := by
  have hfacts : (parse "S ::= A (\"x\" | !B \"y\")\x7b2,3\x7d  A ::= \"a\" | B  B ::= \"b\""
      .standard).toOption.any (fun g => g.rules = [("S", 0), ("A", 8), ("B", 12)] &&
        g.graph.size = 14 && (g.graph.node 4).kind.children = [3, 5] &&
          g.graph.referencedRules 0 = [8]) := by
    decide +kernel
  obtain ⟨g, hparse, hfacts⟩ := (Option.any_eq_true _ _).1 hfacts
  simp only [Bool.and_eq_true, decide_eq_true_eq] at hfacts
  obtain ⟨⟨⟨hrules, hsize⟩, hchildren⟩, hreferenced⟩ := hfacts
  obtain ⟨hbuild, hforest, hend⟩ := parse_forest (toOption_eq_some.1 hparse)
  exact ⟨g, hbuild 54 (by decide), hrules, hsize, hchildren, hreferenced, hforest, hend⟩

end Grammar

end Ebnf
