import Ebnf.Proofs.Forest
import Ebnf.Proofs.Prepared
import Mathlib.Order.OrderIsoNat

/-! Finite rules and escapes, exactly. Growing the finite rules stops, and what it leaves out are
the rules from which references can be followed for ever. These are the rules that lead into a
cycle. -/

namespace Ebnf

namespace Graph

variable {references : List (NodeId × List NodeId)} {finite : List NodeId}

theorem finiteWithin_stops {fuel : Nat} (hnodup : finite.Nodup)
    (hfinite : ∀ r ∈ finite, r ∈ references.map Prod.fst)
    (hfuel : references.length < fuel + finite.length) :
    growFinite references (finiteWithin references fuel finite) =
        finiteWithin references fuel finite ∧
      ∀ more, finiteWithin references (fuel + more) finite =
        finiteWithin references fuel finite := by
  induction fuel generalizing finite with
  | zero =>
    have hle := (List.subperm_of_subset hnodup hfinite).length_le
    rw [List.length_map] at hle
    omega
  | succ fuel ih =>
    have hsuffix : finite <:+ growFinite references finite := suffix_growFinite
    have hsucc : ∀ n, finiteWithin references (n + 1) finite =
        if (growFinite references finite).length = finite.length then finite
        else finiteWithin references n (growFinite references finite) := fun _ => rfl
    simp only [Nat.add_right_comm fuel 1, hsucc]
    by_cases hlen : (growFinite references finite).length = finite.length
    · simp only [if_pos hlen]
      exact ⟨(hsuffix.eq_of_length hlen.symm).symm, fun _ => trivial⟩
    · simp only [if_neg hlen]
      have hgrown := hsuffix.length_le
      refine ih (nodup_growFinite hnodup) ?_ (by omega)
      exact forall_mem_growFinite (fun r ts hr _ => List.mem_map.2 ⟨_, hr, rfl⟩) hfinite

end Graph

namespace Grammar

variable {g : Grammar} {rule : String}

/-- The references in the node of a rule, as they are found before the finite rules are known. -/
def ruleReferences (g : Grammar) : List (NodeId × List NodeId) :=
  (g.rules.map Prod.snd).map fun id => (id, g.graph.referencedRules id)

def IsEndless (g : Grammar) (rule : String) : Prop :=
  ∃ chain : Nat → String, chain 0 = rule ∧
    ∀ n, g.Refers g.graph.Writes (chain n) (chain (n + 1))

def LeadsIntoCycle (g : Grammar) (rule : String) : Prop :=
  ∃ rule', Relation.ReflTransGen (g.Refers g.graph.Writes) rule rule' ∧
    Relation.TransGen (g.Refers g.graph.Writes) rule' rule'

theorem isFiniteRule_iff_not_isEndless : g.IsFiniteRule rule ↔ ¬g.IsEndless rule := by
  have hchain := @not_acc_iff_exists_descending_chain String
    (fun rule' rule => g.Refers g.graph.Writes rule rule') rule
  exact (not_iff_comm.1 hchain).symm

theorem IsFiniteRule.not_leadsIntoCycle (h : g.IsFiniteRule rule) : ¬g.LeadsIntoCycle rule := by
  induction h with
  | intro rule _ ih =>
    rintro ⟨rule', hpath, hcycle⟩
    rcases Relation.ReflTransGen.cases_head hpath with rfl | ⟨next, hnext, hpath⟩
    · obtain ⟨next, hnext, hback⟩ := Relation.TransGen.head'_iff.1 hcycle
      exact ih next hnext ⟨rule, hback, hcycle⟩
    · exact ih next hnext ⟨rule', hpath, hcycle⟩

theorem isFiniteRule_of_not_leadsIntoCycle (hg : g.IsLinked) (h : ¬g.LeadsIntoCycle rule) :
    g.IsFiniteRule rule := by
  let Reached := { r : g.Named // Relation.ReflTransGen (g.Refers g.graph.Writes) rule r.1 }
  have hwf : WellFounded fun r' r : Reached => g.Refers g.graph.Writes r.1.1 r'.1.1 := by
    refine wellFounded_of_irrefl fun r hcycle => h ⟨r.1.1, r.2, ?_⟩
    exact hcycle.lift (fun r : Reached => r.1.1) fun _ _ href => href
  have hall : ∀ r : Reached, g.IsFiniteRule r.1.1 := by
    intro r
    induction r using hwf.induction with
    | _ r ih =>
      refine ⟨_, fun rule' href => ?_⟩
      obtain ⟨root, hroot⟩ := isWalk_expands.exists_root hg href
      exact ih ⟨⟨rule', mem_ruleNames hroot⟩, r.2.tail href⟩ href
  refine ⟨_, fun rule' href => ?_⟩
  obtain ⟨root, hroot⟩ := isWalk_expands.exists_root hg href
  exact hall ⟨⟨rule', mem_ruleNames hroot⟩, .single href⟩

theorem isEndless_iff_leadsIntoCycle (hg : g.IsLinked) :
    g.IsEndless rule ↔ g.LeadsIntoCycle rule := by
  constructor
  · intro hendless
    by_contra hcycle
    have hfinite := isFiniteRule_of_not_leadsIntoCycle hg hcycle
    exact isFiniteRule_iff_not_isEndless.1 hfinite hendless
  · intro hcycle
    by_contra hendless
    have hfinite := isFiniteRule_iff_not_isEndless.2 hendless
    exact hfinite.not_leadsIntoCycle hcycle

def Escapes (g : Grammar) (option : NodeId) : Prop :=
  ∀ x rule target, Relation.ReflTransGen g.graph.Writes option x →
    (g.graph.node x).kind = .reference rule target → ¬g.IsEndless rule

theorem escapes_iff_not_recurses {o : NodeId} : g.Escapes o ↔ ¬g.Recurses o := by
  constructor
  · rintro hescapes ⟨x, rule, target, hpath, hk, hinfinite⟩
    exact hinfinite (isFiniteRule_iff_not_isEndless.2 (hescapes x rule target hpath hk))
  · intro hrecurses x rule target hpath hk
    refine isFiniteRule_iff_not_isEndless.1 (not_not.1 fun hinfinite => hrecurses ?_)
    exact ⟨x, rule, target, hpath, hk, hinfinite⟩

/-- The finite rules and the escapes are those that the references demand. -/
structure IsExact (g : Grammar) : Prop where
  finite {id : NodeId} : g.graph.isFinite id = true ↔
    ∃ rule, (rule, id) ∈ g.rules ∧ ¬g.IsEndless rule
  cycle {rule : String} : g.IsEndless rule ↔ g.LeadsIntoCycle rule
  stable : Graph.growFinite g.ruleReferences g.graph.finiteRules = g.graph.finiteRules
  stops {fuel : Nat} : g.rules.length < fuel →
    Graph.finiteWithin g.ruleReferences fuel [] = g.graph.finiteRules
  size {id : NodeId} {options : List NodeId} {weights escapes : Distribution} :
    (g.graph.node id).kind = .choice options weights escapes → escapes.size = options.length
  escape {id o : NodeId} {i : Nat} {options : List NodeId} {weights escapes : Distribution} :
    (g.graph.node id).kind = .choice options weights escapes → options[i]? = some o →
      g.Escapes o → escapes.weights[i]? = some 1
  recursive {id o : NodeId} {i : Nat} {options : List NodeId} {weights escapes : Distribution} :
    (g.graph.node id).kind = .choice options weights escapes → options[i]? = some o →
      ¬g.Escapes o → escapes.weights[i]? = some 0

theorem IsPrepared.mem_rules (hg : g.IsPrepared) {id : NodeId} (h : g.graph.isFinite id = true) :
    id ∈ g.rules.map Prod.snd := by
  rw [Graph.isFinite, List.contains_iff_mem, hg.finiteRules] at h
  refine Graph.forall_mem_finiteWithin (P := fun id => id ∈ g.rules.map Prod.snd)
    (fun id targets hid _ => ?_) _ (List.forall_mem_nil _) id h
  obtain ⟨_, hmem, heq⟩ := List.mem_map.1 hid
  cases heq
  exact hmem

theorem IsPrepared.finiteWithin_eq (hg : g.IsPrepared) :
    Graph.growFinite g.ruleReferences g.graph.finiteRules = g.graph.finiteRules ∧
      ∀ {fuel}, g.rules.length < fuel →
        Graph.finiteWithin g.ruleReferences fuel [] = g.graph.finiteRules := by
  have hlength : g.ruleReferences.length = g.rules.length := by simp [ruleReferences]
  have hrules : g.graph.finiteRules =
      Graph.finiteWithin g.ruleReferences (g.rules.length + 1) [] := by
    rw [hg.finiteRules, ← List.length_map]
    rfl
  have hfuel : g.ruleReferences.length < g.rules.length + 1 + ([] : List NodeId).length := by
    rw [hlength]
    exact Nat.lt_succ_self _
  obtain ⟨hstable, hstops⟩ := Graph.finiteWithin_stops .nil (List.forall_mem_nil _) hfuel
  rw [← hrules] at hstable
  refine ⟨hstable, fun {fuel} hfuel => ?_⟩
  obtain ⟨more, rfl⟩ := Nat.exists_eq_add_of_le hfuel
  exact (hstops more).trans hrules.symm

open scoped Classical in
theorem IsPrepared.weight_of_option (hg : g.IsPrepared) {id o : NodeId} {i : Nat}
    {options : List NodeId} {weights escapes : Distribution}
    (hk : (g.graph.node id).kind = .choice options weights escapes) (ho : options[i]? = some o) :
    escapes.weights[i]? = some (if g.Recurses o then 0 else 1) := by
  have hchild : o ∈ (g.graph.node id).kind.children := by
    rw [hk]
    exact List.mem_of_getElem? ho
  have hrecursive := hg.isPotentiallyRecursive_iff (hg.linked.child hchild).2
  have hmark : escapes.weights[i]? =
      some (if !g.graph.isPotentiallyRecursive o then 1 else 0) := by
    rw [hg.escapes hk]
    simp only [Distribution.indicator, List.getElem?_map, ho, Option.map_some]
  by_cases hrecurses : g.Recurses o
  · rw [hmark, if_pos hrecurses, hrecursive.2 hrecurses]
    rfl
  · rw [hmark, if_neg hrecurses, Bool.eq_false_iff.2 fun hyes => hrecurses (hrecursive.1 hyes)]
    rfl

theorem IsPrepared.isExact (hg : g.IsPrepared) (hnames : g.ruleNames.Nodup) : g.IsExact where
  finite {id} := by
    constructor
    · intro hfinite
      obtain ⟨⟨rule, _⟩, hmem, rfl⟩ := List.mem_map.1 (hg.mem_rules hfinite)
      have hroot := lookup_eq_some_of_mem hnames hmem
      exact ⟨rule, hmem, isFiniteRule_iff_not_isEndless.1 ((hg.isFinite_iff hroot).1 hfinite)⟩
    · rintro ⟨rule, hmem, hendless⟩
      have hroot := lookup_eq_some_of_mem hnames hmem
      exact (hg.isFinite_iff hroot).2 (isFiniteRule_iff_not_isEndless.2 hendless)
  cycle := isEndless_iff_leadsIntoCycle hg.linked
  stable := hg.finiteWithin_eq.1
  stops := hg.finiteWithin_eq.2
  size hk := by
    rw [hg.escapes hk]
    simp [Distribution.size, Distribution.indicator]
  escape hk ho hescapes := by
    rw [hg.weight_of_option hk ho, if_neg]
    exact fun hrecursive => escapes_iff_not_recurses.1 hescapes hrecursive
  recursive hk ho hescapes := by
    rw [hg.weight_of_option hk ho, if_pos]
    exact not_not.1 fun hrecursive => hescapes (escapes_iff_not_recurses.2 hrecursive)

end Grammar

end Ebnf
