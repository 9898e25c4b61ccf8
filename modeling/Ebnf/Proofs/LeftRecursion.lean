import Ebnf.Proofs.Reading.Exact
import Ebnf.Proofs.Walks

/-! Matching comes to an end on every grammar without left recursion. What can be asked again at
the same offset is only what stands behind possibly empty nodes, so a chain of such questions that
does not end would lead some rule back to itself; every other question is asked further on. -/

namespace Ebnf

namespace Grammar

inductive PossiblyEmpty (g : Grammar) : NodeId → Prop
  | optional {id : NodeId} : (g.graph.node id).repetition.min = 0 → PossiblyEmpty g id
  | terminal {id : NodeId} : (g.graph.node id).kind = .terminal "" → PossiblyEmpty g id
  | lookAhead {id : NodeId} {positive : Bool} {operand : Option NodeId} :
      (g.graph.node id).kind = .lookAhead positive operand → PossiblyEmpty g id
  | cut {id : NodeId} : (g.graph.node id).kind = .cut → PossiblyEmpty g id
  | reference {id root : NodeId} {rule : String} {target : Option NodeId} :
      (g.graph.node id).kind = .reference rule target → g.rules.lookup rule = some root →
      PossiblyEmpty g root → PossiblyEmpty g id
  | group {id : NodeId} {children : List NodeId} : (g.graph.node id).kind = .group children →
      (∀ c ∈ children, PossiblyEmpty g c) → PossiblyEmpty g id
  | rule {id : NodeId} {name : String} {children : List NodeId} :
      (g.graph.node id).kind = .rule name children → (∀ c ∈ children, PossiblyEmpty g c) →
      PossiblyEmpty g id
  | choice {id o : NodeId} {options : List NodeId} {weights escapes : Distribution} :
      (g.graph.node id).kind = .choice options weights escapes → o ∈ options →
      PossiblyEmpty g o → PossiblyEmpty g id

inductive LeftChild (g : Grammar) : NodeId → NodeId → Prop
  | group {id c : NodeId} {before after : List NodeId} :
      (g.graph.node id).kind = .group (before ++ c :: after) →
      (∀ b ∈ before, g.PossiblyEmpty b) → LeftChild g id c
  | rule {id c : NodeId} {name : String} {before after : List NodeId} :
      (g.graph.node id).kind = .rule name (before ++ c :: after) →
      (∀ b ∈ before, g.PossiblyEmpty b) → LeftChild g id c
  | choice {id o : NodeId} {options : List NodeId} {weights escapes : Distribution} :
      (g.graph.node id).kind = .choice options weights escapes → o ∈ options → LeftChild g id o
  | lookAhead {id o : NodeId} {positive : Bool} :
      (g.graph.node id).kind = .lookAhead positive (some o) → LeftChild g id o

def RefersLeft (g : Grammar) (rule rule' : String) : Prop :=
  ∃ root id target, g.rules.lookup rule = some root ∧
    Relation.ReflTransGen g.LeftChild root id ∧ (g.graph.node id).kind = .reference rule' target

/-- Some rule reaches itself by references in left position. -/
def IsLeftRecursive (g : Grammar) : Prop := ∃ rule, Relation.TransGen g.RefersLeft rule rule

inductive Asks (g : Grammar) : NodeId → NodeId → Prop
  | child {id c : NodeId} : g.LeftChild id c → Asks g id c
  | reference {id root : NodeId} {rule : String} {target : Option NodeId} :
      (g.graph.node id).kind = .reference rule target → g.rules.lookup rule = some root →
      Asks g id root

theorem LeftChild.mem_children {g : Grammar} {id c : NodeId} (h : g.LeftChild id c) :
    c ∈ (g.graph.node id).kind.children := by
  cases h with
  | group hk | rule hk => simp [hk, NodeKind.children]
  | choice hk ho => simpa [hk, NodeKind.children] using ho
  | lookAhead hk => simp [hk, NodeKind.children]

theorem LeftChild.of_rule {g : Grammar} {id c : NodeId} {name : String} {children : List NodeId}
    (hk : (g.graph.node id).kind = .rule name children) (h : g.LeftChild id c) :
    ∃ before after, children = before ++ c :: after ∧ ∀ b ∈ before, g.PossiblyEmpty b := by
  cases h with
  | rule hk' hbefore => exact ⟨_, _, (NodeKind.rule.inj (hk.symm.trans hk')).2, hbefore⟩
  | group hk' | choice hk' | lookAhead hk' => cases hk.symm.trans hk'

section

variable {g : Grammar}

theorem isWalk_asks : g.IsWalk g.LeftChild g.Asks where
  down h := h.mem_children
  step h := by
    cases h with
    | child hchild => exact .inl hchild
    | reference hk hroot => exact .inr ⟨_, _, hk, hroot⟩

theorem wellFounded_asks (hg : g.IsLinked) (h : ¬g.IsLeftRecursive) :
    WellFounded fun b a => g.Asks a b :=
  isWalk_asks.wellFounded hg fun rule hrule => h ⟨rule, hrule⟩

end

end Grammar

/-- Whether an answer to a task that ends where it began shows its nodes to be possibly empty. -/
def Task.MayBeEmpty (g : Grammar) : Task → Prop
  | once id => g.PossiblyEmpty id
  | rest id count => count = 0 → g.PossiblyEmpty id
  | inTurn ids => ∀ id ∈ ids, g.PossiblyEmpty id
  | firstOf ids => ∃ id ∈ ids, g.PossiblyEmpty id

section

variable {g : Grammar} {text : List Char}

theorem Reads.mayBeEmpty {task : Task} {k : Nat} {e : Option Nat} {raised : Bool}
    (h : Reads g text task k e raised) (hk : k ≤ text.length) (he : e = some k) :
    task.MayBeEmpty g := by
  induction h with
  | @literal id k l hn =>
    have hlen : k + l.toList.length = k := Option.some.inj he
    have hnil : l.toList = [] := List.eq_nil_of_length_eq_zero (by omega)
    rw [String.toList_eq_nil_iff.1 hnil] at hn
    exact .terminal hn
  | character =>
    have hlen := Option.some.inj he
    omega
  | reference hn hroot _ ih => exact .reference hn hroot (ih hk he)
  | group hn _ ih => exact .group hn (ih hk he)
  | rule hn _ ih => exact .rule hn (ih hk he)
  | choice hn _ ih =>
    obtain ⟨o, ho, hempty⟩ := ih hk he
    exact .choice hn ho hempty
  | lookAhead hn => exact .lookAhead hn
  | cut hn => exact .cut hn
  | @full id count k | @last id count k =>
    rintro rfl
    rw [Repetition.stop] at he
    split at he
    · next hmin => exact .optional (Nat.le_zero.1 hmin)
    · cases he
  | empty _ _ ih => exact fun _ => ih hk rfl
  | more _ h₁ hm h₂ =>
    have hle := h₁.bounds hk rfl
    have hle' := h₂.bounds hle.2 he
    omega
  | done => exact List.forall_mem_nil _
  | onward h₁ h₂ ih₁ ih₂ =>
    obtain ⟨hle, hlen⟩ := h₁.bounds hk rfl
    have hback := (h₂.bounds hlen he).1
    obtain rfl := Nat.le_antisymm hback hle
    exact List.forall_mem_cons.2 ⟨ih₁ hk rfl rfl, ih₂ hk he⟩
  | taken _ ih => exact ⟨_, List.mem_cons_self, ih hk he rfl⟩
  | skipped _ _ _ ih =>
    obtain ⟨o, ho, hempty⟩ := ih hk he
    exact ⟨o, List.mem_cons_of_mem _ ho, hempty⟩
  | noLiteral | noCharacter | exhausted | blocked | committed => cases he

def Readable (g : Grammar) (text : List Char) (task : Task) (k : Nat) : Prop :=
  ∃ e raised, Reads g text task k e raised

def ReadableBehind (g : Grammar) (P : NodeId → Prop) (text : List Char) (k : Nat) : Prop :=
  ∀ m, k < m → m ≤ text.length → ∀ task : Task, task.On P → Readable g text task m

variable {k : Nat} {P : NodeId → Prop}

theorem Readable.rest (hbehind : ReadableBehind g P text k) (hk : k ≤ text.length) {id : Nat}
    (hid : P id) (h : Readable g text (.once id) k) (count : Nat) :
    Readable g text (.rest id count) k := by
  cases hroom : (g.graph.node id).repetition.hasRoom count with
  | false => exact ⟨_, _, .full hroom⟩
  | true =>
    rcases h with ⟨- | m, raised, hread⟩
    · exact ⟨_, _, .last hroom hread⟩
    · obtain ⟨hle, hlen⟩ := hread.bounds hk rfl
      by_cases heq : m = k
      · subst heq
        exact ⟨_, _, .empty hroom hread⟩
      · obtain ⟨e, later, hmore⟩ := hbehind m (by omega) hlen (.rest id (count + 1)) hid
        exact ⟨_, _, .more hroom hread heq hmore⟩

theorem Readable.inTurn (hbehind : ReadableBehind g P text k) (hk : k ≤ text.length)
    (ids : List NodeId) (hin : ∀ id ∈ ids, P id)
    (h : ∀ before c after, ids = before ++ c :: after → (∀ b ∈ before, g.PossiblyEmpty b) →
      Readable g text (.once c) k) : Readable g text (.inTurn ids) k := by
  induction ids with
  | nil => exact ⟨_, _, .done⟩
  | cons id ids ih =>
    have hid := hin id List.mem_cons_self
    have hins : ∀ c ∈ ids, P c := fun c hc => hin c (List.mem_cons_of_mem _ hc)
    rcases (h [] id ids rfl nofun).rest hbehind hk hid 0 with ⟨- | m, raised, hread⟩
    · exact ⟨_, _, .blocked hread⟩
    · obtain ⟨hle, hlen⟩ := hread.bounds hk rfl
      by_cases heq : m = k
      · subst heq
        have hempty : g.PossiblyEmpty id := hread.mayBeEmpty hk rfl rfl
        obtain ⟨e, later, hrest⟩ := ih hins fun before c after heq hbefore =>
          h (id :: before) c after (congrArg (id :: ·) heq)
            (List.forall_mem_cons.2 ⟨hempty, hbefore⟩)
        exact ⟨_, _, .onward hread hrest⟩
      · obtain ⟨e, later, hrest⟩ := hbehind m (by omega) hlen (.inTurn ids) hins
        exact ⟨_, _, .onward hread hrest⟩

theorem Readable.firstOf (hbehind : ReadableBehind g P text k) (hk : k ≤ text.length)
    (ids : List NodeId) (hin : ∀ id ∈ ids, P id)
    (h : ∀ id ∈ ids, Readable g text (.once id) k) : Readable g text (.firstOf ids) k := by
  induction ids with
  | nil => exact ⟨_, _, .exhausted⟩
  | cons id ids ih =>
    have hid := hin id List.mem_cons_self
    rcases (h id List.mem_cons_self).rest hbehind hk hid 0 with ⟨- | m, - | -, hread⟩
    · obtain ⟨e, raised, hrest⟩ := ih (fun c hc => hin c (List.mem_cons_of_mem _ hc))
        fun c hc => h c (List.mem_cons_of_mem _ hc)
      exact ⟨_, _, .skipped hread hrest⟩
    · exact ⟨_, _, .committed hread⟩
    all_goals exact ⟨_, _, .taken hread⟩

theorem Readable.once (hg : g.IsLinked) (hbehind : ReadableBehind g P text k)
    (hk : k ≤ text.length) {id : Nat} (hid : id < g.graph.size)
    (hin : ∀ c ∈ (g.graph.node id).kind.children, P c)
    (h : ∀ c, g.Asks id c → Readable g text (.once c) k) : Readable g text (.once id) k := by
  cases hn : (g.graph.node id).kind with
  | terminal l =>
    by_cases hprefix : l.toList <+: text.drop k
    · exact ⟨_, _, .literal hn hprefix⟩
    · exact ⟨_, _, .noLiteral hn hprefix⟩
  | charClass set =>
    by_cases hchar : ∃ c, text[k]? = some c ∧ set.contains c = true
    · obtain ⟨c, hc, hmem⟩ := hchar
      exact ⟨_, _, .character hn hc hmem⟩
    · refine ⟨_, _, .noCharacter hn fun c hc => ?_⟩
      exact Bool.eq_false_iff.2 fun hmem => hchar ⟨c, hc, hmem⟩
  | reference rule target =>
    obtain ⟨root, -, hroot⟩ := hg.reference hid hn
    obtain ⟨e, raised, hread⟩ := h root (.reference hn hroot)
    exact ⟨_, _, .reference hn hroot hread⟩
  | group children =>
    rw [hn] at hin
    obtain ⟨e, raised, hread⟩ := Readable.inTurn hbehind hk children hin
      fun before c after heq hbefore => h c (.child (.group (heq ▸ hn) hbefore))
    exact ⟨_, _, .group hn hread⟩
  | rule name children =>
    rw [hn] at hin
    obtain ⟨e, raised, hread⟩ := Readable.inTurn hbehind hk children hin
      fun before c after heq hbefore => h c (.child (.rule (heq ▸ hn) hbefore))
    exact ⟨_, _, .rule hn hread⟩
  | choice options weights escapes =>
    rw [hn] at hin
    obtain ⟨e, raised, hread⟩ := Readable.firstOf hbehind hk options hin
      fun o ho => h o (.child (.choice hn ho))
    exact ⟨_, _, .choice hn hread⟩
  | lookAhead positive operand =>
    obtain ⟨o, rfl⟩ := hg.operand hn
    have ho := hin o (by simp [hn, NodeKind.children])
    obtain ⟨e, raised, hread⟩ := (h o (.child (.lookAhead hn))).rest hbehind hk ho 0
    exact ⟨_, _, .lookAhead hn hread⟩
  | cut => exact ⟨_, _, .cut hn⟩

/-- What is asked for from some nodes on is read if no chain of questions goes on for ever: by
induction on what is left of the text, and at one offset on what a node asks for there. -/
theorem readable_of_acc (hg : g.IsLinked) (hin : ∀ id : Nat, P id → id < g.graph.size)
    (hclosed : ∀ id c, P id → g.Leads id c → P c)
    (hacc : ∀ id, P id → Acc (fun b a => g.Asks a b) id) {task : Task} (hk : k ≤ text.length)
    (htask : task.On P) : Readable g text task k := by
  induction hleft : text.length - k using Nat.strong_induction_on generalizing k task with
  | _ left ih =>
    -- the outer induction reads whatever starts behind `k`, the inner one what starts at `k`
    have hbehind : ReadableBehind g P text k := fun m hm hlen task htask =>
      ih (text.length - m) (by omega) hlen htask rfl
    have honce : ∀ id, P id → Readable g text (.once id) k := by
      intro id hid
      induction hacc id hid with
      | intro id _ hasks =>
        refine Readable.once hg hbehind hk (hin id hid) (fun c hc => hclosed id c hid (.child hc))
          fun c hc => hasks c hc ?_
        exact hclosed id c hid (Grammar.isWalk_asks.leads hc)
    cases task with
    | once id => exact honce id htask
    | rest id count => exact (honce id htask).rest hbehind hk htask count
    | inTurn ids =>
      refine Readable.inTurn hbehind hk ids htask fun before c after heq _ => honce c (htask c ?_)
      rw [heq]
      exact List.mem_append_right _ List.mem_cons_self
    | firstOf ids =>
      exact Readable.firstOf hbehind hk ids htask fun id hid => honce id (htask id hid)

theorem readable (hg : g.IsLinked) (h : ¬g.IsLeftRecursive) {task : Task} (hk : k ≤ text.length)
    (hin : task.Inside g.graph.size) : Readable g text task k :=
  readable_of_acc hg (fun _ hid => hid) (fun _ _ _ hstep => Grammar.isWalk_leads.inside hg hstep)
    (fun id _ => (g.wellFounded_asks hg h).apply id) hk hin

end

namespace Grammar

theorem matchText_isSome {g : Grammar} (hg : g.IsLinked) (h : ¬g.IsLeftRecursive) {rule : String}
    {root : NodeId} (hroot : g.rules.lookup rule = some root) (text : String) (trace : Bool) :
    ∃ outcome, g.graph.matchText root text trace = some outcome := by
  have hin := (hg.root hroot).1
  have hread : Readable g text.toList (.whole root) 0 := readable hg h (Nat.zero_le _) hin
  have hspec := g.graph.matchText_spec root text trace
  obtain ⟨e, raised, hread⟩ := hread
  rw [(readNode_enough_iff hg hin (Nat.zero_le _) e raised).2 hread] at hspec
  obtain ⟨outcome, houtcome, -⟩ := hspec
  exact ⟨outcome, houtcome⟩

/-- A parsed grammar without left recursion matches every text against every rule and returns, with
or without a trace. -/
theorem match_returns {source : String} {settings : EngineSettings} {g : Grammar}
    (h : parse source settings = .ok g) (hleft : ¬g.IsLeftRecursive) (rule text : String)
    (hrule : rule ∈ g.ruleNames) :
    (∃ root, g.root rule = .ok root ∧
      ∀ trace, ∃ outcome, g.graph.matchText root text trace = some outcome) ∧
    ∃ outcome, g.matchRule rule text = .ok (some outcome) := by
  have hg := isLinked_parse h
  obtain ⟨root, hroot⟩ := exists_lookup hrule
  have hreturns := matchText_isSome hg hleft hroot text
  refine ⟨⟨root, by rw [Grammar.root, hroot], hreturns⟩, ?_⟩
  obtain ⟨outcome, houtcome⟩ := hreturns g.settings.traceMatches
  exact ⟨outcome, matchRule_eq_ok.2 ⟨root, hroot, houtcome⟩⟩

theorem not_possiblyEmpty_of_terminal {g : Grammar} {id : NodeId} {l : String}
    (hk : (g.graph.node id).kind = .terminal l) (hl : l ≠ "")
    (hmin : (g.graph.node id).repetition.min ≠ 0) : ¬g.PossiblyEmpty id := by
  intro hempty
  cases hempty with
  | optional h => exact hmin h
  | terminal h => exact hl (NodeKind.terminal.inj (hk.symm.trans h))
  | lookAhead h | cut h | reference h | group h | rule h | choice h => cases hk.symm.trans h

/-- Repetitions of what may be empty end, and so does a rule that goes on behind a character. -/
theorem match_returns_nested : ∃ g, parse "S ::= ((\"a\"?)*)+ \"b\" S?" .standard = .ok g ∧
    ¬g.IsLeftRecursive ∧ ∀ text, ∃ outcome, g.matchRule "S" text = .ok (some outcome) := by
  have hfacts : (parse "S ::= ((\"a\"?)*)+ \"b\" S?" .standard).toOption.any (fun g =>
      (match (g.graph.node 4).kind with | .terminal l => l ≠ "" | _ => false) &&
      (g.graph.node 0).kind.children = [1, 4, 5] &&
      (g.graph.node 4).repetition.min ≠ 0 && g.rules = [("S", 0)] &&
      ((List.range 4).all fun id => (g.graph.node (id + 1)).kind.children.all (· ≤ 4)) &&
      ((List.range 5).all fun id => g.graph.referencesWithin 1 id = []) &&
      g.graph.size = 6) := by
    decide +kernel
  obtain ⟨g, hparse, hfacts⟩ := (Option.any_eq_true _ _).1 hfacts
  simp only [Bool.and_eq_true, decide_eq_true_eq, List.all_eq_true] at hfacts
  obtain ⟨⟨⟨⟨⟨⟨hterminal, hrule⟩, hmin⟩, hrules⟩, hchildren⟩, hreference⟩, hsize⟩ := hfacts
  have hparse := toOption_eq_some.1 hparse
  -- the reference stands behind a character, so no path in left position leaves the first nodes
  have hnonempty : ¬g.PossiblyEmpty 4 := by
    cases hk : (g.graph.node 4).kind with
    | terminal l =>
      rw [hk] at hterminal
      exact not_possiblyEmpty_of_terminal hk (of_decide_eq_true hterminal) hmin
    | _ => simp [hk] at hterminal
  have hstep : ∀ id c : Nat, id ≤ 4 → g.LeftChild id c → c ≤ 4 := by
    intro id c hid hchild
    cases id with
    | zero =>
      have hroot : g.rules.lookup "S" = some 0 := by rw [hrules]; rfl
      obtain ⟨-, -, children, hk⟩ := (isLinked_parse hparse).root hroot
      have heq : children = [1, 4, 5] := by rwa [hk] at hrule
      obtain ⟨before, after, rfl, hbefore⟩ := hchild.of_rule hk
      rcases before with - | ⟨b, - | ⟨b', before⟩⟩ <;>
        simp only [List.nil_append, List.cons_append, List.cons.injEq] at heq
      · rw [heq.1]
        decide
      · rw [heq.2.1]
      · obtain ⟨-, rfl, -⟩ := heq
        exact absurd (hbefore 4 (by simp)) hnonempty
    | succ id => exact hchildren id (List.mem_range.2 (by omega)) c hchild.mem_children
  have hleft : ¬g.IsLeftRecursive := by
    have hnone : ∀ rule rule', ¬g.RefersLeft rule rule' := by
      rintro rule rule' ⟨root, id, target, hroot, hpath, hk⟩
      have hid : ∀ id : Nat, Relation.ReflTransGen g.LeftChild root id → id ≤ 4 := by
        intro id hpath
        induction hpath with
        | refl =>
          rw [hrules, List.lookup_cons] at hroot
          split at hroot
          · exact Option.some.inj hroot ▸ Nat.zero_le 4
          · cases hroot
        | tail _ hlast ih => exact hstep _ _ ih hlast
      have hsize' : 4 < g.graph.size := by omega
      have hlt := Nat.lt_of_le_of_lt (hid id hpath) hsize'
      obtain ⟨root', rfl, -⟩ := (isLinked_parse hparse).reference hlt hk
      have hnone := hreference id (List.mem_range.2 (Nat.lt_succ_of_le (hid id hpath)))
      simp [Graph.referencesWithin, hk] at hnone
    rintro ⟨rule, hcycle⟩
    obtain ⟨rule', href, -⟩ := Relation.TransGen.head'_iff.1 hcycle
    exact hnone _ _ href
  refine ⟨g, hparse, hleft, fun text => (match_returns hparse hleft "S" text ?_).2⟩
  simp [ruleNames, hrules]

end Grammar

end Ebnf
