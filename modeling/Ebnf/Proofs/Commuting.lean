import Ebnf.CommandLine
import Ebnf.Proofs.Calls
import Ebnf.Proofs.Searches

/-! Settings of different rules commute. What settings do to a rule is answered, checked and written
in the tree of that rule alone, and the trees of different rules have no node in common. So neither
answer depends on whether the other settings came before, and both orders leave the same grammar. -/

namespace Ebnf

namespace Graph

variable {g g' : Graph} {root id : NodeId}

theorem modify_comm {id' : NodeId} (hne : id ≠ id') (f f' : Node → Node) :
    (g.modify id f).modify id' f' = (g.modify id' f').modify id f := by
  have hnodes : (g.nodes.modify id f).modify id' f' = (g.nodes.modify id' f').modify id f := by
    refine Array.ext (by simp) fun i _ _ => ?_
    simp only [Array.getElem_modify]
    by_cases hid : id = i
    · simp [hid, show id' ≠ i from fun hid' => hne (hid.trans hid'.symm)]
    · simp [hid]
  exact congrArg (Graph.mk · g.finiteRules) hnodes

/-- What writes to nodes of a region and to no others, one after the other. -/
inductive WritesIn (P : NodeId → Prop) : (Graph → Graph) → Prop
  | nothing : WritesIn P fun g => g
  | more {write : Graph → Graph} {id : NodeId} {f : Node → Node} :
      WritesIn P write → P id → WritesIn P fun g => (write g).modify id f

namespace WritesIn

variable {P Q : NodeId → Prop} {write write' : Graph → Graph}

theorem single (hid : P id) (f : Node → Node) : WritesIn P fun g => g.modify id f :=
  .more .nothing hid

theorem append (h : WritesIn P write) (h' : WritesIn P write') :
    WritesIn P fun g => write' (write g) := by
  induction h' with
  | nothing => exact h
  | more _ hid ih => exact .more ih hid

theorem foldl {α : Type} {f : Graph → α → Graph} {as : List α}
    (h : ∀ a ∈ as, WritesIn P fun g => f g a) : WritesIn P fun g => as.foldl f g := by
  induction as with
  | nil => exact .nothing
  | cons a as ih =>
    obtain ⟨ha, has⟩ := List.forall_mem_cons.1 h
    exact ha.append (ih has)

theorem size (h : WritesIn P write) (g : Graph) : (write g).size = g.size := by
  induction h with
  | nothing => rfl
  | more _ _ ih => simpa [Graph.size, modify] using ih

theorem node_of_not (h : WritesIn P write) (hid : ¬ P id) (g : Graph) :
    (write g).node id = g.node id := by
  induction h with
  | nothing => rfl
  | @more write id' f _ hid' ih =>
    rcases node_modify (write g) id' f id with heq | ⟨rfl, -⟩
    · exact heq.trans ih
    · exact absurd hid' hid

theorem modify_comm (h : WritesIn P write) (hid : ¬ P id) (f : Node → Node) (g : Graph) :
    write (g.modify id f) = (write g).modify id f := by
  induction h with
  | nothing => rfl
  | @more write id' f' _ hid' ih =>
    have hne : id ≠ id' := fun heq => hid (heq ▸ hid')
    dsimp only
    rw [ih, Graph.modify_comm hne]

theorem comm (h : WritesIn P write) (h' : WritesIn Q write') (hapart : ∀ id, Q id → ¬ P id)
    (g : Graph) : write (write' g) = write' (write g) := by
  induction h' with
  | nothing => rfl
  | more _ hid ih =>
    dsimp only
    rw [h.modify_comm (hapart _ hid), ih]

/-- Updates write to the nodes that they are for, and to the alternatives whose weights they set. -/
theorem update {updates : List NodeUpdate} (h : ∀ u ∈ updates, P u.id ∧
    ∀ target d, u.weights = some (target, d) → P target) :
    WritesIn P fun g => g.update updates := by
  have hyields : WritesIn P fun g => updates.foldl setYield g :=
    foldl fun u hu => single (h u hu).1 _
  have hweights : WritesIn P fun g => updates.foldl setWeightsOf g := by
    refine foldl fun u hu => ?_
    unfold setWeightsOf
    split
    · next target d hset => exact single ((h u hu).2 target d hset) _
    · exact .nothing
  exact hyields.append hweights

end WritesIn

def Below (g : Graph) (root : NodeId) : NodeId → Prop := Relation.ReflTransGen g.HasChild root

structure SameBelow (g g' : Graph) (root : NodeId) : Prop where
  size : g'.size = g.size
  node {id : NodeId} : g.Below root id → g'.node id = g.node id

theorem findWithin_congr (h : g.SameBelow g' root) (label : String) (fuel : Nat)
    (hid : g.Below root id) : g'.findWithin label fuel id = g.findWithin label fuel id := by
  induction fuel generalizing id with
  | zero => rfl
  | succ fuel ih =>
    have hsame : g'.findAt label (g'.findWithin label fuel) id =
        g.findAt label (g'.findWithin label fuel) id := by
      simp only [findAt, h.node hid]
    rw [(g'.isSearch_findWithin label).succ, (g.isSearch_findWithin label).succ, hsame]
    exact (g.isSearch_findWithin label).congr fun c hc => ih (hid.tail hc)

theorem findLabelled_congr (h : g.SameBelow g' root) (label : String) :
    g'.findLabelled root label = g.findLabelled root label := by
  rw [findLabelled, findLabelled, h.size]
  exact findWithin_congr h label _ .refl

theorem below_of_findWithin {label : String} {fuel : Nat} {found : NodeId}
    (h : g.findWithin label fuel id = some found) : g.Below id found := by
  induction fuel generalizing id with
  | zero => cases h
  | succ fuel ih =>
    rw [(g.isSearch_findWithin label).succ, findAt] at h
    split at h
    · cases h
      exact .refl
    · obtain ⟨c, hc, hfound⟩ := List.exists_of_findSome?_eq_some h
      exact .head hc (ih hfound)

end Graph

namespace NodeSettings

variable {g g' : Graph} {root id : NodeId} {s : NodeSettings}

def optionsOf (g : Graph) (candidate : NodeId) : Option (NodeId × Nat) :=
  match (g.node candidate).kind with
  | .choice options _ _ => some (candidate, options.length)
  | _ => none

theorem choiceFor_eq (g : Graph) (id : NodeId) :
    choiceFor g id = (id :: (g.node id).kind.children).findSome? (optionsOf g) := rfl

theorem choiceFor_congr (h : g.SameBelow g' root) (hid : g.Below root id) :
    choiceFor g' id = choiceFor g id := by
  have hsame : ∀ c ∈ id :: (g.node id).kind.children, optionsOf g' c = optionsOf g c := by
    intro c hc
    have hbelow : g.Below root c := by
      rcases List.mem_cons.1 hc with rfl | hchild
      · exact hid
      · exact hid.tail hchild
    simp only [optionsOf, h.node hbelow]
  rw [choiceFor_eq, choiceFor_eq, h.node hid]
  exact findSome?_congr hsame

theorem updateFor_congr (h : g.SameBelow g' root) (hid : g.Below root id) :
    s.updateFor g' id = s.updateFor g id := by
  rw [updateFor, updateFor, h.node hid, choiceFor_congr h hid]

theorem below_of_choiceFor {target : NodeId} {count : Nat}
    (h : choiceFor g id = some (target, count)) : g.Below id target := by
  obtain ⟨c, hc, hfound⟩ := List.exists_of_findSome?_eq_some h
  have htarget : c = target := by
    split at hfound
    · cases hfound
      rfl
    · cases hfound
  subst htarget
  rcases List.mem_cons.1 hc with rfl | hchild
  · exact .refl
  · exact .single hchild

theorem below_of_updateFor {u : NodeUpdate} (h : s.updateFor g id = .ok u) {target : NodeId}
    {d : Distribution} (hweights : u.weights = some (target, d)) : g.Below id target := by
  unfold updateFor at h
  obtain ⟨y, -, h⟩ := bind_eq_ok.1 h
  split at h
  · cases h
    cases hweights
  · split at h
    · cases h
    · next hchoice =>
      obtain ⟨d', -, rfl⟩ := map_eq_ok.1 h
      cases hweights
      exact below_of_choiceFor hchoice

end NodeSettings

namespace Grammar

variable {g g' fresh : Grammar} {rule rule' : String}

def Has (g : Grammar) (rule : String) (id : NodeId) : Prop :=
  ∃ root, g.rules.lookup rule = some root ∧ g.graph.Below root id

def IsApart (g : Grammar) : Prop :=
  ∀ {rule rule' : String} {id : NodeId}, g.Has rule id → g.Has rule' id → rule = rule'

theorem isApart_of_isSetFrom (hfresh : fresh.IsForest) (h : g.IsSetFrom fresh) : g.IsApart := by
  have hchild : g.graph.HasChild = fresh.graph.HasChild := by
    funext id c
    rw [Graph.HasChild, (h.graph id).alike.children]
    rfl
  rintro rule rule' id ⟨root, hroot, hbelow⟩ ⟨root', hroot', hbelow'⟩
  rw [h.rules] at hroot hroot'
  rw [Graph.Below, hchild] at hbelow hbelow'
  have hmem := mem_of_lookup_eq_some hroot
  have hmem' := mem_of_lookup_eq_some hroot'
  obtain ⟨hinside, children, hkind⟩ := hfresh.rule.1 hmem
  obtain ⟨-, children', hkind'⟩ := hfresh.rule.1 hmem'
  have hid : id < fresh.graph.size := by
    rcases hbelow.cases_tail with rfl | ⟨p, -, hp⟩
    · exact hinside
    · exact (hfresh.child hp).2
  -- a node is below one root only, and a root is the node of one rule
  obtain rfl := (hfresh.existsUnique_root hid).unique ⟨⟨rule, hmem⟩, hbelow⟩
    ⟨⟨rule', hmem'⟩, hbelow'⟩
  exact (NodeKind.rule.inj (hkind.symm.trans hkind')).1

/-- Two grammars with the same rules and with the same tree of one of them. -/
structure SameFor (g g' : Grammar) (rule : String) : Prop where
  rules : g'.rules = g.rules
  size : g'.graph.size = g.graph.size
  node {id : NodeId} : g.Has rule id → g'.graph.node id = g.graph.node id

theorem SameFor.refl (g : Grammar) (rule : String) : g.SameFor g rule := ⟨rfl, rfl, fun _ => rfl⟩

theorem sameFor_of_writesIn {write : Graph → Graph} (hapart : g.IsApart)
    (hwrite : Graph.WritesIn (g.Has rule) write) (hne : rule ≠ rule') :
    g.SameFor { g with graph := write g.graph } rule' :=
  ⟨rfl, hwrite.size _, fun hid => hwrite.node_of_not (fun hid' => hne (hapart hid' hid)) _⟩

theorem updateOf_congr {root : NodeId} (h : g.graph.SameBelow g'.graph root) :
    g'.updateOf rule root = g.updateOf rule root := by
  funext entry
  unfold updateOf
  rw [Graph.findLabelled_congr h]
  cases hfound : g.graph.findLabelled root entry.1 with
  | none => rfl
  | some id =>
    dsimp only
    rw [NodeSettings.updateFor_congr h (Graph.below_of_findWithin hfound)]

theorem exists_writesIn (g : Grammar) (rule : String) (settings : RuleSettings) :
    ∃ answer write, Graph.WritesIn (g.Has rule) write ∧ ∀ g', g.SameFor g' rule →
      (configureInPlace rule settings).after g' =
        (answer, { g' with graph := write g'.graph }) := by
  have hafter : ∀ g', (configureInPlace rule settings).after g' = _ :=
    fun g' => after_configureInPlace g' rule settings
  cases hlookup : g.rules.lookup rule with
  | none =>
    refine ⟨.error (.unknownRule rule), _, .nothing, fun g' hsame => ?_⟩
    have hroot : g'.root rule = .error (.unknownRule rule) := by
      rw [root, hsame.rules, hlookup]
    have hrefused : g'.configure rule settings = .error (.unknownRule rule) :=
      bind_eq_error.2 (.inl hroot)
    rw [hafter, hrefused]
  | some root =>
    have hroot : ∀ g', g.SameFor g' rule → g'.root rule = .ok root := by
      intro g' hsame
      rw [Grammar.root, hsame.rules, hlookup]
    have hupdates : ∀ g', g.SameFor g' rule →
        g'.updatesFor rule root settings = g.updatesFor rule root settings := by
      intro g' hsame
      rw [updatesFor_eq, updatesFor_eq,
        updateOf_congr ⟨hsame.size, fun hid => hsame.node ⟨root, hlookup, hid⟩⟩]
    cases hchecked : g.updatesFor rule root settings with
    | error err =>
      refine ⟨.error err, _, .nothing, fun g' hsame => ?_⟩
      have hrefused : g'.configure rule settings = .error err := bind_eq_error.2 (.inr
        ⟨root, hroot g' hsame, bind_eq_error.2 (.inl ((hupdates g' hsame).trans hchecked))⟩)
      rw [hafter, hrefused]
    | ok updates =>
      refine ⟨.ok (), fun graph => graph.update updates, .update fun u hu => ?_, fun g' hsame => ?_⟩
      · obtain ⟨entry, -, id, hfound, hmade⟩ := exists_entry_of_updatesFor hchecked u hu
        have hbelow : g.graph.Below root id := Graph.below_of_findWithin hfound
        obtain ⟨rfl, -⟩ := NodeSettings.updateFor_eq_ok hmade
        refine ⟨⟨root, hlookup, hbelow⟩, fun target d hweights => ⟨root, hlookup, ?_⟩⟩
        exact hbelow.trans (NodeSettings.below_of_updateFor hmade hweights)
      · have hset : g'.configure rule settings =
            .ok { g' with graph := g'.graph.update updates } := bind_eq_ok.2
          ⟨root, hroot g' hsame, bind_eq_ok.2 ⟨updates, (hupdates g' hsame).trans hchecked, rfl⟩⟩
        rw [hafter, hset]

theorem exists_diamond (hapart : g.IsApart) (hne : rule ≠ rule')
    (settings settings' : RuleSettings) :
    ∃ answer answer' left right both,
      (configureInPlace rule settings).after g = (answer, left) ∧
      (configureInPlace rule' settings').after left = (answer', both) ∧
      (configureInPlace rule' settings').after g = (answer', right) ∧
      (configureInPlace rule settings).after right = (answer, both) := by
  obtain ⟨answer, write, hwrite, hafter⟩ := g.exists_writesIn rule settings
  obtain ⟨answer', write', hwrite', hafter'⟩ := g.exists_writesIn rule' settings'
  have hleft := hafter' _ (sameFor_of_writesIn hapart hwrite hne)
  have hright := hafter _ (sameFor_of_writesIn hapart hwrite' hne.symm)
  have hcomm : write (write' g.graph) = write' (write g.graph) :=
    hwrite.comm hwrite' (fun id hid' hid => hne (hapart hid hid')) g.graph
  refine ⟨answer, answer', _, _, _, hafter g (.refl g rule), hleft, hafter' g (.refl g rule'), ?_⟩
  rw [hright]
  exact congrArg (fun graph => (answer, { g with graph })) hcomm

end Grammar

namespace Engine

/-- Applies the settings of one more rule, and adds its fault to those found before. -/
def applyNext (held : Engine × List GrammarError) (entry : String × RuleSettings) :
    Engine × List GrammarError :=
  match held.1.configure entry.1 entry.2 with
  | .ok e => (e, held.2)
  | .error fault => (held.1, held.2 ++ [fault])

theorem applyAll_eq (e : Engine) (rules : List (String × RuleSettings)) :
    e.applyAll rules = rules.foldl applyNext (e, []) := rfl

def faultsOf : Except GrammarError Unit → List GrammarError
  | .ok _ => []
  | .error fault => [fault]

variable {held held' : Engine × List GrammarError} {entry entry' : String × RuleSettings}

theorem applyNext_eq (held : Engine × List GrammarError) (entry : String × RuleSettings) :
    (applyNext held entry).1.grammar =
      ((Grammar.configureInPlace entry.1 entry.2).after held.1.grammar).2 ∧
    (applyNext held entry).2 = held.2 ++
      faultsOf ((Grammar.configureInPlace entry.1 entry.2).after held.1.grammar).1 := by
  rw [Grammar.after_configureInPlace, applyNext, configure]
  cases held.1.grammar.configure entry.1 entry.2 with
  | ok => exact ⟨rfl, (List.append_nil _).symm⟩
  | error => exact ⟨rfl, rfl⟩

/-- The same grammar, and the same faults in some order. -/
structure Agree (held held' : Engine × List GrammarError) : Prop where
  grammar : held.1.grammar = held'.1.grammar
  faults : held.2.Perm held'.2

namespace Agree

theorem trans {held'' : Engine × List GrammarError} (h : Agree held held')
    (h' : Agree held' held'') : Agree held held'' :=
  ⟨h.grammar.trans h'.grammar, h.faults.trans h'.faults⟩

theorem applyNext (h : Agree held held') (entry : String × RuleSettings) :
    Agree (applyNext held entry) (applyNext held' entry) := by
  obtain ⟨hgrammar, hfaults⟩ := applyNext_eq held entry
  obtain ⟨hgrammar', hfaults'⟩ := applyNext_eq held' entry
  refine ⟨?_, ?_⟩
  · rw [hgrammar, hgrammar', h.grammar]
  · rw [hfaults, hfaults', h.grammar]
    exact h.faults.append_right _

theorem foldl (h : Agree held held') (rules : List (String × RuleSettings)) :
    Agree (rules.foldl Engine.applyNext held) (rules.foldl Engine.applyNext held') := by
  induction rules generalizing held held' with
  | nil => exact h
  | cons entry rules ih => exact ih (h.applyNext entry)

theorem swap (hapart : held.1.grammar.IsApart) (hne : entry.1 ≠ entry'.1) :
    Agree (Engine.applyNext (Engine.applyNext held entry) entry')
      (Engine.applyNext (Engine.applyNext held entry') entry) := by
  obtain ⟨answer, answer', left, right, both, hfirst, hsecond, hfirst', hsecond'⟩ :=
    Grammar.exists_diamond hapart hne entry.2 entry'.2
  have hleft := applyNext_eq held entry
  have hright := applyNext_eq held entry'
  rw [hfirst] at hleft
  rw [hfirst'] at hright
  have hboth := applyNext_eq (Engine.applyNext held entry) entry'
  have hboth' := applyNext_eq (Engine.applyNext held entry') entry
  rw [hleft.1, hsecond, hleft.2] at hboth
  rw [hright.1, hsecond', hright.2] at hboth'
  refine ⟨hboth.1.trans hboth'.1.symm, ?_⟩
  rw [hboth.2, hboth'.2, List.append_assoc, List.append_assoc]
  exact List.perm_append_comm.append_left _

end Agree

theorem isSetFrom_applyNext {fresh : Grammar} (h : held.1.grammar.IsSetFrom fresh)
    (entry : String × RuleSettings) : (applyNext held entry).1.grammar.IsSetFrom fresh := by
  rw [(applyNext_eq held entry).1, ← grammar_call]
  exact isSetFrom_call h (.configure entry.1 entry.2)

theorem agree_of_perm {fresh : Grammar} (hfresh : fresh.IsForest)
    {rules rules' : List (String × RuleSettings)} (hperm : rules.Perm rules')
    (hnames : (rules.map Prod.fst).Nodup) (h : held.1.grammar.IsSetFrom fresh) :
    Agree (rules.foldl applyNext held) (rules'.foldl applyNext held) := by
  induction hperm generalizing held with
  | nil => exact ⟨rfl, .refl _⟩
  | cons entry _ ih =>
    exact ih (List.nodup_cons.1 hnames).2 (isSetFrom_applyNext h entry)
  | swap entry entry' rules =>
    have hne : entry'.1 ≠ entry.1 := fun heq =>
      (List.nodup_cons.1 hnames).1 (heq ▸ List.mem_cons_self)
    exact (Agree.swap (Grammar.isApart_of_isSetFrom hfresh h) hne).foldl rules
  | trans hfirst _ ih ih' =>
    exact (ih hnames h).trans (ih' ((hfirst.map Prod.fst).nodup_iff.1 hnames) h)

/-- Whatever was called before, settings of two different rules have the same answers in either
order and leave the same grammar; and the settings of many rules leave the same grammar in every
order, with the same faults. -/
theorem configure_commutes {source : String} {settings : EngineSettings} {e : Engine}
    (h : parse source settings = .ok e) (calls : List Call) :
    (∀ (rule rule' : String) (set set' : RuleSettings), rule ≠ rule' →
      ∃ answer answer' left right both,
        (Grammar.configureInPlace rule set).after (e.callAll calls).grammar = (answer, left) ∧
        (Grammar.configureInPlace rule' set').after left = (answer', both) ∧
        (Grammar.configureInPlace rule' set').after (e.callAll calls).grammar =
          (answer', right) ∧
        (Grammar.configureInPlace rule set).after right = (answer, both)) ∧
    ∀ rules rules' : List (String × RuleSettings), rules.Perm rules' →
      (rules.map Prod.fst).Nodup →
        ((e.callAll calls).applyAll rules).1.grammar =
          ((e.callAll calls).applyAll rules').1.grammar ∧
        ((e.callAll calls).applyAll rules).2.Perm ((e.callAll calls).applyAll rules').2 := by
  have hfresh := Grammar.isForest_parse (grammar_parse h)
  have hset := isSetFrom_callAll h calls
  refine ⟨fun rule rule' set set' hne => ?_, fun rules rules' hperm hnames => ?_⟩
  · exact Grammar.exists_diamond (Grammar.isApart_of_isSetFrom hfresh hset) hne set set'
  · rw [applyAll_eq, applyAll_eq]
    have hset : (e.callAll calls, ([] : List GrammarError)).1.grammar.IsSetFrom e.grammar := hset
    obtain ⟨hgrammar, hfaults⟩ := agree_of_perm hfresh hperm hnames hset
    exact ⟨hgrammar, hfaults⟩

/-- The settings of `T` ask for more than a call has left, and are refused before and behind those
of `S`. -/
theorem configure_commutes_refused : ∃ (e e' : Engine) (tail : RuleSettings),
    parse "S ::= (\"a\" | T \"b\").pick \"c\"*.tail  T ::= (\"x\"\x7b2,5\x7d.tail)" .standard = .ok e ∧
    e.callAll [.setSettings ⟨2, 40, true⟩,
      .configure "T" (Table.ofList [("tail", ⟨none, some 3, none, none⟩)])] = e' ∧
    tail = Table.ofList [("tail", ⟨some 4, none, none, none⟩)] ∧
    (∃ err left right both,
      (Grammar.configureInPlace "S" tail).after e'.grammar = (.ok (), left) ∧
      (Grammar.configureInPlace "T" tail).after left = (.error err, both) ∧
      (Grammar.configureInPlace "T" tail).after e'.grammar = (.error err, right) ∧
      (Grammar.configureInPlace "S" tail).after right = (.ok (), both)) ∧
    (e'.applyAll [("S", tail), ("T", tail)]).1.grammar =
      (e'.applyAll [("T", tail), ("S", tail)]).1.grammar := by
  let calls : List Call := [.setSettings ⟨2, 40, true⟩,
    .configure "T" (Table.ofList [("tail", ⟨none, some 3, none, none⟩)])]
  let tail : RuleSettings := Table.ofList [("tail", ⟨some 4, none, none, none⟩)]
  have hfacts : (parse
      "S ::= (\"a\" | T \"b\").pick \"c\"*.tail  T ::= (\"x\"\x7b2,5\x7d.tail)" .standard).toOption.any (fun e =>
        ((Grammar.configureInPlace "S" tail).after
          (e.callAll calls).grammar).1.toOption.isSome &&
        ((Grammar.configureInPlace "T" tail).after
          (e.callAll calls).grammar).1.toOption.isNone) := by
    decide +kernel
  obtain ⟨e, hparse, hfacts⟩ := (Option.any_eq_true _ _).1 hfacts
  simp only [Bool.and_eq_true] at hfacts
  obtain ⟨hset, hrefused⟩ := hfacts
  have hparse := toOption_eq_some.1 hparse
  obtain ⟨hpairs, hlists⟩ := configure_commutes hparse calls
  obtain ⟨answer, answer', left, right, both, hfirst, hsecond, hfirst', hsecond'⟩ :=
    hpairs "S" "T" tail tail (by decide)
  have hswap := hlists [("S", tail), ("T", tail)] [("T", tail), ("S", tail)]
    (.swap _ _ _) (by simp)
  rw [hfirst] at hset
  rw [hfirst'] at hrefused
  cases answer with
  | error => cases hset
  | ok =>
    cases answer' with
    | ok => cases hrefused
    | error err =>
      exact ⟨e, _, tail, hparse, rfl, rfl,
        ⟨err, left, right, both, hfirst, hsecond, hfirst', hsecond'⟩, hswap.1⟩

end Engine

end Ebnf
