import Ebnf.Proofs.Configured
import Ebnf.Proofs.Walks

/-! What is worked out before anything is generated: which rules are finite, and which options of
an alternative are escapes. A rule is added to the finite ones only if all rules it refers to have
been added before, so expanding a finite rule comes to an end, and below it only finite rules are
referred to. An option is an escape if nothing but finite rules is referred to below it. -/

namespace Ebnf

namespace NodeKind

def written : NodeKind → List NodeId
  | lookAhead _ _ => []
  | kind => kind.children

theorem mem_children_of_written {k : NodeKind} {c : NodeId} (h : c ∈ k.written) :
    c ∈ k.children := by
  cases k with
  | lookAhead => cases h
  | _ => exact h

end NodeKind

namespace Graph

def Writes (g : Graph) (id c : NodeId) : Prop := c ∈ (g.node id).kind.written

variable {g : Graph}

theorem referencesWithin_eq_flatMap {fuel id : Nat}
    (h : ∀ rule target, (g.node id).kind ≠ .reference rule target) :
    g.referencesWithin (fuel + 1) id =
      (g.node id).kind.written.flatMap (g.referencesWithin fuel) := by
  rw [referencesWithin]
  cases hk : (g.node id).kind with
  | reference rule target => exact absurd hk (h rule target)
  | lookAhead | terminal | charClass | group | choice | rule | cut => rfl

theorem writes_eq_of_reference {id x : NodeId} {rule : String} {target : Option NodeId}
    (hk : (g.node id).kind = .reference rule target) (h : Relation.ReflTransGen g.Writes id x) :
    x = id := by
  rcases Relation.ReflTransGen.cases_head_iff.1 h with rfl | ⟨c, hc, -⟩
  · rfl
  · rw [Writes, hk] at hc
    cases hc

end Graph

namespace Grammar

variable {g : Grammar}

theorem IsLinked.wellFounded_writes (hg : g.IsLinked) :
    WellFounded fun c id => g.graph.Writes id c :=
  Subrelation.wf (fun h => NodeKind.mem_children_of_written h) hg.down

theorem mem_referencesWithin (hg : g.IsLinked) {fuel id : Nat}
    (h : g.rank g.graph.Writes id ≤ fuel) {t : NodeId} :
    t ∈ g.graph.referencesWithin fuel id ↔ ∃ x rule,
      Relation.ReflTransGen g.graph.Writes id x ∧
        (g.graph.node x).kind = .reference rule (some t) := by
  induction fuel generalizing id with
  | zero =>
    have hout : g.graph.size ≤ id := by
      refine Nat.not_lt.1 fun hid => ?_
      exact Nat.not_succ_le_zero _ ((rank_pos hid).trans_le h)
    have habsent := Graph.node_of_size_le hout
    refine ⟨nofun, ?_⟩
    rintro ⟨x, rule, hpath, hx⟩
    obtain rfl := Graph.writes_eq_of_reference (by rw [habsent]; rfl) hpath
    rw [habsent] at hx
    cases hx
  | succ fuel ih =>
    have hbelow : ∀ {c : Nat}, g.graph.Writes id c → g.rank g.graph.Writes c ≤ fuel := by
      intro c hc
      have hid := (hg.child (NodeKind.mem_children_of_written hc)).1
      exact Nat.le_of_lt_succ ((rank_lt hg.wellFounded_writes hid hc).trans_le h)
    by_cases href : ∃ rule target, (g.graph.node id).kind = .reference rule target
    · obtain ⟨rule, target, hk⟩ := href
      rw [Graph.referencesWithin, hk]
      constructor
      · intro ht
        exact ⟨id, rule, .refl, by rw [hk, Option.mem_toList.1 ht]⟩
      · rintro ⟨x, rule', hpath, hx⟩
        obtain rfl := Graph.writes_eq_of_reference hk hpath
        obtain ⟨-, rfl⟩ := NodeKind.reference.inj (hk.symm.trans hx)
        exact List.mem_singleton_self t
    · have hne : ∀ rule target, (g.graph.node id).kind ≠ .reference rule target :=
        fun rule target hk => href ⟨rule, target, hk⟩
      rw [Graph.referencesWithin_eq_flatMap hne, List.mem_flatMap]
      constructor
      · rintro ⟨c, hc, ht⟩
        obtain ⟨x, rule, hpath, hx⟩ := (ih (hbelow hc)).1 ht
        exact ⟨x, rule, .head hc hpath, hx⟩
      · rintro ⟨x, rule, hpath, hx⟩
        rcases Relation.ReflTransGen.cases_head_iff.1 hpath with rfl | ⟨c, hc, hpath⟩
        · exact absurd hx (hne rule _)
        · exact ⟨c, hc, (ih (hbelow hc)).2 ⟨x, rule, hpath, hx⟩⟩

theorem mem_referencedRules (hg : g.IsLinked) {id t : NodeId} : t ∈ g.graph.referencedRules id ↔
    ∃ x rule, Relation.ReflTransGen g.graph.Writes id x ∧
      (g.graph.node x).kind = .reference rule (some t) :=
  mem_referencesWithin hg ((rank_le id).trans (Nat.le_succ _))

theorem recursesWithin_eq_any (hg : g.IsLinked) {fuel id : Nat} (hid : id < g.graph.size) :
    g.graph.recursesWithin fuel id =
      (g.graph.referencesWithin fuel id).any fun t => !g.graph.isFinite t := by
  induction fuel generalizing id with
  | zero => rfl
  | succ fuel ih =>
    rw [Graph.recursesWithin, Graph.referencesWithin]
    have hchild : ∀ c ∈ (g.graph.node id).kind.children, g.graph.recursesWithin fuel c =
        (g.graph.referencesWithin fuel c).any fun t => !g.graph.isFinite t :=
      fun c hc => ih (hg.child hc).2
    cases hk : (g.graph.node id).kind with
    | reference rule target =>
      obtain ⟨root, rfl, -⟩ := hg.reference hid hk
      simp
    | lookAhead => rfl
    | terminal | charClass | group | choice | rule | cut =>
      rw [hk] at hchild
      simp only [List.any_flatMap]
      rw [Bool.eq_iff_iff, List.any_eq_true, List.any_eq_true]
      exact exists_congr fun c => and_congr_right fun hc => by rw [hchild c hc]

end Grammar

namespace Graph

variable {references : List (NodeId × List NodeId)} {finite : List NodeId}

theorem growFinite_cons (rule : NodeId) (targets : List NodeId) : growFinite
    ((rule, targets) :: references) finite = growFinite references
      (if !finite.contains rule && targets.all finite.contains then rule :: finite
        else finite) := rfl

theorem forall_mem_growFinite {P : NodeId → Prop}
    (h : ∀ r targets, (r, targets) ∈ references → (∀ t ∈ targets, P t) → P r)
    (hfinite : ∀ r ∈ finite, P r) : ∀ r ∈ growFinite references finite, P r := by
  induction references generalizing finite with
  | nil => exact hfinite
  | cons x references ih =>
    obtain ⟨rule, targets⟩ := x
    rw [growFinite_cons]
    refine ih (fun r ts hr => h r ts (List.mem_cons_of_mem _ hr)) ?_
    split
    · next hadd =>
      rw [Bool.and_eq_true, List.all_eq_true] at hadd
      have htargets : ∀ t ∈ targets, P t := fun t ht =>
        hfinite t (List.contains_iff_mem.1 (hadd.2 t ht))
      exact List.forall_mem_cons.2 ⟨h rule targets List.mem_cons_self htargets, hfinite⟩
    · exact hfinite

theorem forall_mem_finiteWithin {P : NodeId → Prop}
    (h : ∀ r targets, (r, targets) ∈ references → (∀ t ∈ targets, P t) → P r) (fuel : Nat)
    (hfinite : ∀ r ∈ finite, P r) : ∀ r ∈ finiteWithin references fuel finite, P r := by
  induction fuel generalizing finite with
  | zero => exact hfinite
  | succ fuel ih =>
    rw [finiteWithin]
    split
    · exact hfinite
    · exact ih (forall_mem_growFinite h hfinite)

theorem suffix_growFinite : finite <:+ growFinite references finite := by
  induction references generalizing finite with
  | nil => exact List.suffix_rfl
  | cons x references ih =>
    obtain ⟨rule, targets⟩ := x
    rw [growFinite_cons]
    split
    · exact (List.suffix_cons rule finite).trans ih
    · exact ih

theorem nodup_growFinite (h : finite.Nodup) : (growFinite references finite).Nodup := by
  induction references generalizing finite with
  | nil => exact h
  | cons x references ih =>
    obtain ⟨rule, targets⟩ := x
    rw [growFinite_cons]
    apply ih
    split
    · next hadd =>
      rw [Bool.and_eq_true, Bool.not_eq_true', List.contains_eq_mem, decide_eq_false_iff_not]
        at hadd
      exact List.nodup_cons.2 ⟨hadd.1, h⟩
    · exact h

theorem mem_growFinite {rule : NodeId} {targets : List NodeId}
    (hmem : (rule, targets) ∈ references) (h : ∀ t ∈ targets, t ∈ finite) :
    rule ∈ growFinite references finite := by
  induction references generalizing finite with
  | nil => cases hmem
  | cons x references ih =>
    rcases List.mem_cons.1 hmem with rfl | hrest
    · rw [growFinite_cons]
      apply suffix_growFinite.mem
      have hall : targets.all finite.contains = true :=
        List.all_eq_true.2 fun t ht => List.contains_iff_mem.2 (h t ht)
      by_cases hrule : rule ∈ finite <;> simp [hall, hrule]
    · obtain ⟨first, rest⟩ := x
      rw [growFinite_cons]
      refine ih hrest fun t ht => ?_
      split
      · exact List.mem_cons_of_mem _ (h t ht)
      · exact h t ht

/-- No rule is left out all of whose targets are finite: every round but the last adds one, and
there are no more to add than there are rules. -/
theorem mem_finiteWithin {fuel : Nat} (hnodup : finite.Nodup)
    (hfinite : ∀ r ∈ finite, r ∈ references.map Prod.fst)
    (hfuel : references.length < fuel + finite.length) {rule : NodeId} {targets : List NodeId}
    (hmem : (rule, targets) ∈ references)
    (h : ∀ t ∈ targets, t ∈ finiteWithin references fuel finite) :
    rule ∈ finiteWithin references fuel finite := by
  induction fuel generalizing finite with
  | zero =>
    have hle := (List.subperm_of_subset hnodup hfinite).length_le
    rw [List.length_map] at hle
    omega
  | succ fuel ih =>
    rw [finiteWithin] at h ⊢
    have hsuffix : finite <:+ growFinite references finite := suffix_growFinite
    split at h
    · next hlen =>
      rw [if_pos hlen]
      rw [hsuffix.eq_of_length hlen.symm]
      exact mem_growFinite hmem h
    · next hlen =>
      rw [if_neg hlen]
      have hgrown := hsuffix.length_le
      refine ih (nodup_growFinite hnodup) ?_ (by omega) h
      exact forall_mem_growFinite (fun r ts hr _ => List.mem_map.2 ⟨_, hr, rfl⟩) hfinite

end Graph

namespace Grammar

def IsFiniteRule (g : Grammar) (rule : String) : Prop :=
  Acc (fun rule' rule => g.Refers g.graph.Writes rule rule') rule

def Recurses (g : Grammar) (id : NodeId) : Prop :=
  ∃ x rule target, Relation.ReflTransGen g.graph.Writes id x ∧
    (g.graph.node x).kind = .reference rule target ∧ ¬g.IsFiniteRule rule

/-- What parsing works out: the links, the finite rules, and the escapes of every alternative. -/
structure IsPrepared (g : Grammar) : Prop where
  linked : g.IsLinked
  finiteRules : g.graph.finiteRules =
    (g.graph.withFiniteRules (g.rules.map Prod.snd)).finiteRules
  escapes {id : Nat} {options : List NodeId} {weights escapes : Distribution} :
    (g.graph.node id).kind = .choice options weights escapes →
      escapes = .indicator (options.map fun o => !g.graph.isPotentiallyRecursive o)

/-- What is written for a node without a limit: its parts, and finite rules it refers to. -/
inductive Expands (g : Grammar) : NodeId → NodeId → Prop
  | part {id c : NodeId} : g.graph.Writes id c → Expands g id c
  | finite {id root : NodeId} {rule : String} {target : Option NodeId} :
      (g.graph.node id).kind = .reference rule target → g.rules.lookup rule = some root →
      g.IsFiniteRule rule → Expands g id root

section

variable {g : Grammar}

theorem isWalk_expands : g.IsWalk g.graph.Writes g.Expands where
  down h := NodeKind.mem_children_of_written h
  step h := by
    cases h with
    | part hchild => exact .inl hchild
    | finite hk hroot => exact .inr ⟨_, _, hk, hroot⟩

theorem acc_expands_root (hg : g.IsLinked) {rule : String} {root : NodeId}
    (hroot : g.rules.lookup rule = some root) (hfinite : g.IsFiniteRule rule) :
    Acc (fun b a => g.Expands a b) root := by
  induction hfinite generalizing root with
  | intro rule _ ih =>
    refine isWalk_expands.acc_of_references hg fun id rule' target root' hpath hk hroot' _ => ?_
    exact ih rule' ⟨root, id, target, hroot, hpath, hk⟩ hroot'

theorem wellFounded_expands (hg : g.IsLinked) : WellFounded fun b a => g.Expands a b := by
  refine ⟨fun start => isWalk_expands.acc_of_references hg ?_⟩
  intro id rule target root _ hk hroot hstep
  cases hstep with
  | part hchild =>
    exact absurd hchild (by simp [Graph.Writes, hk, NodeKind.written, NodeKind.children])
  | finite hk' hroot' hfinite => exact acc_expands_root hg hroot' hfinite

theorem mem_referencedRules_root (hg : g.IsLinked) {rule : String} {root t : NodeId}
    (hroot : g.rules.lookup rule = some root) : t ∈ g.graph.referencedRules root ↔
      ∃ rule', g.Refers g.graph.Writes rule rule' ∧ g.rules.lookup rule' = some t := by
  rw [mem_referencedRules hg]
  constructor
  · rintro ⟨id, rule', hpath, hk⟩
    have hid := isWalk_expands.inside_of_path hg hpath (hg.root hroot).1
    obtain ⟨_, hsome, hroot'⟩ := hg.reference hid hk
    cases hsome
    exact ⟨rule', ⟨root, id, _, hroot, hpath, hk⟩, hroot'⟩
  · rintro ⟨rule', ⟨_, id, target, hsame, hpath, hk⟩, hroot'⟩
    obtain rfl := Option.some.inj (hroot.symm.trans hsame)
    have hid := isWalk_expands.inside_of_path hg hpath (hg.root hroot).1
    obtain ⟨_, rfl, hlookup⟩ := hg.reference hid hk
    obtain rfl := Option.some.inj (hroot'.symm.trans hlookup)
    exact ⟨id, rule', hpath, hk⟩

theorem IsPrepared.isFinite_iff (hg : g.IsPrepared) {rule : String} {root : NodeId}
    (hroot : g.rules.lookup rule = some root) :
    g.graph.isFinite root = true ↔ g.IsFiniteRule rule := by
  rw [Graph.isFinite, List.contains_iff_mem, hg.finiteRules]
  constructor
  · intro hmem
    have hall := Graph.forall_mem_finiteWithin (P := fun root => ∀ rule,
      g.rules.lookup rule = some root → g.IsFiniteRule rule) ?_ _ (List.forall_mem_nil _) root hmem
    · exact hall rule hroot
    intro root targets hreferences htargets rule hroot
    obtain ⟨_, -, heq⟩ := List.mem_map.1 hreferences
    obtain ⟨rfl, rfl⟩ := Prod.mk.inj heq
    refine ⟨_, fun rule' href => ?_⟩
    obtain ⟨t, hroot'⟩ := isWalk_expands.exists_root hg.linked href
    have hmem := (mem_referencedRules_root hg.linked hroot).2 ⟨rule', href, hroot'⟩
    exact htargets t hmem rule' hroot'
  · intro hfinite
    induction hfinite generalizing root with
    | intro rule _ ih =>
      have hrule : root ∈ g.rules.map Prod.snd := by
        obtain ⟨before, after, heq, -⟩ := List.lookup_eq_some_iff.1 hroot
        simp [heq]
      refine Graph.mem_finiteWithin .nil (List.forall_mem_nil _) (by simp)
        (List.mem_map.2 ⟨root, hrule, rfl⟩) fun t ht => ?_
      obtain ⟨rule', href, hroot'⟩ := (mem_referencedRules_root hg.linked hroot).1 ht
      exact ih rule' href hroot'

theorem IsPrepared.isPotentiallyRecursive_iff (hg : g.IsPrepared) {id : Nat}
    (hid : id < g.graph.size) : g.graph.isPotentiallyRecursive id = true ↔ g.Recurses id := by
  rw [Graph.isPotentiallyRecursive, recursesWithin_eq_any hg.linked hid, List.any_eq_true]
  constructor
  · rintro ⟨t, ht, hinfinite⟩
    obtain ⟨x, rule, hpath, hk⟩ := (mem_referencedRules hg.linked).1 ht
    have hx := isWalk_expands.inside_of_path hg.linked hpath hid
    obtain ⟨_, hsome, hroot⟩ := hg.linked.reference hx hk
    cases hsome
    refine ⟨x, rule, _, hpath, hk, fun hfinite => ?_⟩
    rw [(hg.isFinite_iff hroot).2 hfinite] at hinfinite
    cases hinfinite
  · rintro ⟨x, rule, target, hpath, hk, hinfinite⟩
    have hx := isWalk_expands.inside_of_path hg.linked hpath hid
    obtain ⟨t, rfl, hroot⟩ := hg.linked.reference hx hk
    refine ⟨t, (mem_referencedRules hg.linked).2 ⟨x, rule, hpath, hk⟩, ?_⟩
    rw [Bool.not_eq_true', Bool.eq_false_iff]
    exact fun hfinite => hinfinite ((hg.isFinite_iff hroot).1 hfinite)

end

end Grammar

end Ebnf
