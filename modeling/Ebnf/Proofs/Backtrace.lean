import Ebnf.Proofs.Parents
import Ebnf.Proofs.Reading.Failing

/-! The shape of backtraces. A chain of failures starts at a node that fails by itself, and from
there it goes up: from a part to the node that it is part of, and from a rule to the node that a
reference to it is part of. It ends with the rule that was to be matched. -/

namespace Ebnf

theorem Reason.message_unmatched (rest : List Char) : (Reason.unmatched rest).message =
    "There are unmatched characters left: '" ++ String.ofList rest ++ "'" := rfl

namespace NodeKind

def failsAlone : NodeKind → Bool
  | terminal _ | charClass _ | lookAhead false _ => true
  | _ => false

def passesOn : NodeKind → Bool
  | group _ | choice _ _ _ | rule _ _ | lookAhead true _ => true
  | _ => false

end NodeKind

def Task.nodes : Task → List NodeId
  | once id | rest id _ => [id]
  | inTurn ids | firstOf ids => ids

namespace Grammar

structure Follows (g : Grammar) (f f' : Failed) : Prop where
  part {id : NodeId} : f.node = some id → (g.graph.node id).kind.isRule = false →
    f'.node = (g.graph.node id).parent
  rule {id : NodeId} {name : String} {children : List NodeId} : f.node = some id →
    (g.graph.node id).kind = .rule name children →
    ∃ r target, (g.graph.node r).kind = .reference name target ∧
      f'.node = (g.graph.node r).parent
  position : f'.position.index ≤ f.position.index

inductive Stands (g : Grammar) (id : NodeId) (f : Failed) : Prop
  | node : (∀ rule target, (g.graph.node id).kind ≠ .reference rule target) →
      f.node = some id → Stands g id f
  | rule {rule : String} {target : Option NodeId} {root : NodeId} :
      (g.graph.node id).kind = .reference rule target → g.rules.lookup rule = some root →
      f.node = some root → Stands g id f

structure IsTrail (g : Grammar) (text : List Char) (k : Nat) (ids : List NodeId)
    (chain : List Failed) : Prop where
  first : ∃ f ∈ chain.head?, ∃ id, f.node = some id ∧ (g.graph.node id).kind.failsAlone = true
  later : ∀ f ∈ chain.tail, ∃ id, f.node = some id ∧ (g.graph.node id).kind.passesOn = true
  follows : chain.IsChain g.Follows
  last : ∃ f ∈ chain.getLast?, ∃ id ∈ ids, g.Stands id f ∧
    byteCount (text.take k) ≤ f.position.index

section

variable {g : Grammar} {text : List Char} {k : Nat} {ids : List NodeId} {chain : List Failed}

theorem Stands.follows (hg : g.IsLinked) {id p : NodeId} {f f' : Failed} (h : g.Stands id f)
    (hpart : g.IsPart p id) (hnode : f'.node = some p)
    (hposition : f'.position.index ≤ f.position.index) : g.Follows f f' := by
  refine ⟨fun {id'} hid' hrule => ?_, fun {id' name children} hid' hk => ?_, hposition⟩
  · cases h with
    | node _ hid =>
      obtain rfl := Option.some.inj (hid.symm.trans hid')
      rw [hnode, hpart.parent]
    | rule _ hroot hid =>
      obtain rfl := Option.some.inj (hid.symm.trans hid')
      obtain ⟨-, -, children, hk⟩ := hg.root hroot
      rw [hk] at hrule
      cases hrule
  · cases h with
    | node _ hid =>
      obtain rfl := Option.some.inj (hid.symm.trans hid')
      have hnone := hpart.isRule
      rw [hk] at hnone
      cases hnone
    | @rule rule target root hreference hroot hid =>
      obtain rfl := Option.some.inj (hid.symm.trans hid')
      obtain ⟨-, -, children', hk'⟩ := hg.root hroot
      obtain ⟨rfl, -⟩ := NodeKind.rule.inj (hk.symm.trans hk')
      exact ⟨id, target, hreference, by rw [hnode, hpart.parent]⟩

namespace IsTrail

theorem alone {id : NodeId} {reason : Reason}
    (h : (g.graph.node id).kind.failsAlone = true) :
    g.IsTrail text k [id] [.ofNode text id k reason] where
  first := ⟨_, rfl, id, rfl, h⟩
  later := nofun
  follows := .singleton _
  last := by
    refine ⟨_, rfl, id, List.mem_singleton_self id, .node ?_ rfl, ?_⟩
    · intro rule target hk
      rw [hk] at h
      cases h
    · exact (@Cursor.index_atOffset text k).ge

theorem mono {m : Nat} {ids' : List NodeId} (h : g.IsTrail text m ids chain) (hk : k ≤ m)
    (hids : ∀ id ∈ ids, id ∈ ids') : g.IsTrail text k ids' chain := by
  refine ⟨h.first, h.later, h.follows, ?_⟩
  obtain ⟨f, hf, id, hid, hstands, hposition⟩ := h.last
  have hle : byteCount (text.take k) ≤ byteCount (text.take m) := by
    rw [show m = k + (m - k) by omega, List.take_add, byteCount_append]
    exact Nat.le_add_right _ _
  exact ⟨f, hf, id, hids id hid, hstands, hle.trans hposition⟩

theorem reference (hg : g.IsLinked) {id root : NodeId} {rule : String} {target : Option NodeId}
    (hk : (g.graph.node id).kind = .reference rule target)
    (hroot : g.rules.lookup rule = some root) (h : g.IsTrail text k [root] chain) :
    g.IsTrail text k [id] chain := by
  refine ⟨h.first, h.later, h.follows, ?_⟩
  obtain ⟨f, hf, _, hmem, hstands, hposition⟩ := h.last
  obtain rfl := List.mem_singleton.1 hmem
  refine ⟨f, hf, id, List.mem_singleton_self id, ?_, hposition⟩
  cases hstands with
  | node _ hnode => exact .rule hk hroot hnode
  | rule hk' =>
    obtain ⟨-, -, children, hrule⟩ := hg.root hroot
    cases hrule.symm.trans hk'

theorem up (hg : g.IsLinked) {id : NodeId} {reason : Reason}
    (hk : (g.graph.node id).kind.passesOn = true) (hparts : ∀ c ∈ ids, g.IsPart id c)
    (h : g.IsTrail text k ids chain) :
    g.IsTrail text k [id] (chain ++ [.ofNode text id k reason]) := by
  have hne : chain ≠ [] := by
    rintro rfl
    obtain ⟨f, hf, -⟩ := h.first
    cases hf
  refine ⟨?_, ?_, ?_, ?_⟩
  · rw [List.head?_append_of_ne_nil _ hne]
    exact h.first
  · rw [List.tail_append_of_ne_nil hne]
    refine List.forall_mem_append.2 ⟨h.later, fun f hf => ?_⟩
    obtain rfl := List.mem_singleton.1 hf
    exact ⟨id, rfl, hk⟩
  · obtain ⟨f, hf, c, hc, hstands, hposition⟩ := h.last
    refine List.isChain_append.2 ⟨h.follows, .singleton _, fun f' hf' f'' hf'' => ?_⟩
    obtain rfl := Option.some.inj (hf.symm.trans hf')
    obtain rfl := Option.some.inj hf''
    refine hstands.follows hg (hparts c hc) rfl ?_
    exact (@Cursor.index_atOffset text k).le.trans hposition
  · refine ⟨_, List.getLast?_concat .., id, List.mem_singleton_self id, .node ?_ rfl, ?_⟩
    · intro rule target href
      rw [href] at hk
      cases hk
    · exact (@Cursor.index_atOffset text k).ge

end IsTrail

theorem isTrail_of_fails (hg : g.IsLinked) (hparents : ∀ id, g.Parented id) {task : Task}
    (h : Fails g text task k chain) (hk : k ≤ text.length) :
    g.IsTrail text k task.nodes chain := by
  induction h with
  | literal hn | endOfText hn | character hn | absent hn =>
    refine .alone ?_
    rw [hn]
    rfl
  | reference hn hroot _ ih => exact (ih hk).reference hg hn hroot
  | group hn _ ih | rule hn _ ih | present hn _ ih | choice hn _ _ ih =>
    refine (ih hk).up hg ?_ fun c hc => hparents _ c ?_
    · rw [hn]
      rfl
    · rw [hn]
      exact hc
  | last _ _ _ ih => exact ih hk
  | more _ hread _ _ ih =>
    obtain ⟨hle, hlen⟩ := hread.bounds hk rfl
    exact (ih hlen).mono hle fun _ => id
  | onward hread _ ih =>
    obtain ⟨hle, hlen⟩ := hread.bounds hk rfl
    exact (ih hlen).mono hle fun _ => List.mem_cons_of_mem _
  | blocked _ ih | committed _ _ ih | only _ _ ih =>
    refine (ih hk).mono (Nat.le_refl _) fun c hc => ?_
    obtain rfl := List.mem_singleton.1 hc
    exact List.mem_cons_self
  | skipped _ _ ih => exact (ih hk).mono (Nat.le_refl _) fun _ => List.mem_cons_of_mem _

theorem exists_of_fails_root (hg : g.IsLinked) {rule : String} {root : NodeId}
    (hroot : g.rules.lookup rule = some root) (h : Fails g text (.whole root) k chain) :
    ∃ inner, chain = inner ++ [.ofNode text root k .inherited] := by
  obtain ⟨-, honce, children, hk⟩ := hg.root hroot
  cases h with
  | last _ _ hchain =>
    have hinv := hchain.once_inv
    rw [hk] at hinv
    obtain ⟨inner, -, heq⟩ := hinv
    exact ⟨inner, heq⟩
  | more _ _ _ hrest =>
    -- there is no room for a second occurrence
    have hfull : (g.graph.node root).repetition.hasRoom 1 = false := by
      rw [honce]
      rfl
    cases hrest with
    | last hroom => cases hfull.symm.trans hroom
    | more hroom => cases hfull.symm.trans hroom

/-- What a backtrace is that ends with a rule: from what fails by itself up to the rule, every
entry of the one failure of the rule and no other one. -/
structure IsBacktrace (g : Grammar) (text : List Char) (root : NodeId) (chain : List Failed) :
    Prop where
  first : ∃ f ∈ chain.head?, ∃ id, f.node = some id ∧ (g.graph.node id).kind.failsAlone = true
  later : ∀ f ∈ chain.tail, ∃ id, f.node = some id ∧ (g.graph.node id).kind.passesOn = true
  follows : chain.IsChain g.Follows
  positions : chain.Pairwise fun f f' => f'.position.index ≤ f.position.index
  last : chain.getLast? = some (.ofNode text root 0 .inherited)
  fails : ∀ chain', Fails g text (.whole root) 0 chain' ↔ chain' = chain

theorem isBacktrace_of_fails (hg : g.IsLinked) (hparents : ∀ id, g.Parented id) {rule : String}
    {root : NodeId} (hroot : g.rules.lookup rule = some root)
    (h : Fails g text (.whole root) 0 chain) : g.IsBacktrace text root chain := by
  have htrail := isTrail_of_fails hg hparents h (Nat.zero_le _)
  refine ⟨htrail.first, htrail.later, htrail.follows, ?_, ?_, fun chain' => ⟨fun h' => ?_, ?_⟩⟩
  · have htrans : IsTrans Failed fun f f' => f'.position.index ≤ f.position.index :=
      ⟨fun _ _ _ h₁ h₂ => h₂.trans h₁⟩
    exact List.isChain_iff_pairwise.1 (htrail.follows.imp fun _ _ hfollows => hfollows.position)
  · obtain ⟨inner, rfl⟩ := exists_of_fails_root hg hroot h
    exact List.getLast?_concat ..
  · exact h'.unique hg h (Nat.zero_le _) (hg.root hroot).1
  · rintro rfl
    exact h

/-- What is said where a rule reads the text up to an offset and there is more of it. -/
structure IsLeftOver (g : Grammar) (text : List Char) (root : NodeId) (chain : List Failed) :
    Prop where
  reads : ∃ m < text.length, (∃ raised, Reads g text (.whole root) 0 (some m) raised) ∧
    ∃ f, chain = [f] ∧ f.node = none ∧ f.position = (Cursor.atOffset text m).position ∧
      f.reason.message =
        "There are unmatched characters left: '" ++ String.ofList (text.drop m) ++ "'"

theorem matchText_failure (hg : g.IsLinked) (hfresh : ∀ id, (g.graph.node id).IsFresh)
    {root : NodeId} (hroot : root < g.graph.size) {text : String} {trace : Bool}
    {outcome : Outcome} {failure : MatchFailure}
    (hmatch : g.graph.matchText root text trace = some outcome)
    (hfailure : outcome.failure = some failure) :
    g.IsLeftOver text.toList root failure.backtrace ∨
      Fails g text.toList (.whole root) 0 failure.backtrace := by
  have hstart : Cursor.ofString text = Cursor.atOffset text.toList 0 := rfl
  rw [Graph.matchText, hstart] at hmatch
  split at hmatch
  · cases hmatch
  · next result s hanswer =>
    obtain rfl := Option.some.inj hmatch
    cases result with
    | some d =>
      obtain ⟨m, raised, hread, rfl, -, hlen⟩ :=
        ((decides_matchNode hg hroot).reaches _).of_some (Nat.zero_le _) hanswer
      by_cases hlt : m < text.toList.length
      · have hnext : (Cursor.atOffset text.toList m).hasNext = true := by
          simpa [Cursor.hasNext, List.drop_eq_nil_iff] using hlt
        simp only [hnext, if_true] at hfailure
        obtain rfl := Option.some.inj hfailure
        refine .inl ⟨m, hlt, ⟨raised, hread⟩, ⟨none, _, .unmatched _⟩, rfl, rfl, rfl, ?_⟩
        rw [Reason.message_unmatched, Cursor.ahead_atOffset]
      · have hnext : (Cursor.atOffset text.toList m).hasNext = false := by
          simpa [Cursor.hasNext, List.drop_eq_nil_iff] using hlt
        simp [hnext] at hfailure
    | none =>
      obtain ⟨chain, hchain, hfailures⟩ :=
        blames_matchNode hg hfresh _ hroot 0 (Nat.zero_le _) _ s hanswer
      obtain rfl := Option.some.inj hfailure
      right
      rw [hfailures, List.reverse_reverse]
      exact hchain

/-- Where a rule does not match a text, the backtrace either says what is left of the text behind
what the rule reads, or it is the chain of the one failure that the rule does not get over: it goes
from what failed by itself through all that it stands in up to the rule, and has no entry of what
was tried and given up before. -/
theorem matchRule_backtrace {source : String} {settings : EngineSettings} {rule text : String}
    {outcome : Outcome} {failure : MatchFailure} (h : parse source settings = .ok g)
    (hmatch : g.matchRule rule text = .ok (some outcome))
    (hfailure : outcome.failure = some failure) :
    ∃ root, g.rules.lookup rule = some root ∧
      ((failure.isTrailing = true ∧ g.IsLeftOver text.toList root failure.backtrace) ∨
        (failure.isTrailing = false ∧ g.IsBacktrace text.toList root failure.backtrace)) := by
  have hg := isLinked_parse h
  obtain ⟨root, hroot, hmatch⟩ := matchRule_eq_ok.1 hmatch
  refine ⟨root, hroot, ?_⟩
  rcases matchText_failure hg (isFresh_parse h) (hg.root hroot).1 hmatch hfailure with
    hleft | hfails
  · obtain ⟨m, -, -, f, hchain, hnode, -⟩ := hleft.reads
    refine .inl ⟨?_, hleft⟩
    rw [MatchFailure.isTrailing, hchain]
    simp [hnode]
  · have hbacktrace := isBacktrace_of_fails hg (parented_parse h) hroot hfails
    refine .inr ⟨?_, hbacktrace⟩
    unfold MatchFailure.isTrailing
    split
    · next f hchain =>
      obtain ⟨f', hf', id, hnode, -⟩ := hbacktrace.first
      rw [hchain] at hf'
      obtain rfl := Option.some.inj hf'
      simp [hnode]
    · rfl

/-- The optional `a`, the first option and the `C`s in it have been tried before, and the third
option has not been tried at all. -/
theorem matchRule_backtrace_committed :
    ∃ (g : Grammar) (outcome : Outcome) (failure : MatchFailure),
    parse "S ::= \"a\"? B  B ::= \"b\" ((C* \"!\") | (\"c\" ~ \"d\") | \"e\")  C ::= [x-z]"
      .standard = .ok g ∧
    g.matchRule "S" "abcx" = .ok (some outcome) ∧ outcome.failure = some failure ∧
    failure.backtrace.map (fun f => (g.graph.failureLabel f, f.position.index, f.reason.message)) =
      [("Could not match Terminal: 'd'", 3, "found 'x'"), ("Could not match SubExpression", 2, ""),
        ("Could not match AlternativeExpression", 2, "(committed by cut)"),
        ("Could not match SubExpression", 2, ""), ("Could not match Expression: 'B'", 1, ""),
        ("Could not match Expression: 'S'", 0, "")] ∧
    ∃ root, g.rules.lookup "S" = some root ∧
      ((failure.isTrailing = true ∧ g.IsLeftOver "abcx".toList root failure.backtrace) ∨
        (failure.isTrailing = false ∧ g.IsBacktrace "abcx".toList root failure.backtrace)) := by
  have hfacts : (parse
      "S ::= \"a\"? B  B ::= \"b\" ((C* \"!\") | (\"c\" ~ \"d\") | \"e\")  C ::= [x-z]"
      .standard).toOption.any (fun g => (g.matchRule "S" "abcx").toOption.any fun answer =>
        answer.any fun outcome => outcome.failure.any fun failure =>
          failure.backtrace.map (fun f => (g.graph.failureLabel f, f.position.index,
            f.reason.message)) =
          [("Could not match Terminal: 'd'", 3, "found 'x'"),
            ("Could not match SubExpression", 2, ""),
            ("Could not match AlternativeExpression", 2, "(committed by cut)"),
            ("Could not match SubExpression", 2, ""), ("Could not match Expression: 'B'", 1, ""),
            ("Could not match Expression: 'S'", 0, "")]) := by
    decide +kernel
  obtain ⟨g, hparse, hfacts⟩ := (Option.any_eq_true _ _).1 hfacts
  obtain ⟨answer, hanswer, hfacts⟩ := (Option.any_eq_true _ _).1 hfacts
  obtain ⟨outcome, houtcome, hfacts⟩ := (Option.any_eq_true _ _).1 hfacts
  obtain ⟨failure, hfailure, hfacts⟩ := (Option.any_eq_true _ _).1 hfacts
  have hparse := toOption_eq_some.1 hparse
  have hmatch := toOption_eq_some.1 (hanswer.trans (congrArg some houtcome))
  exact ⟨g, outcome, failure, hparse, hmatch, hfailure, of_decide_eq_true hfacts,
    matchRule_backtrace hparse hmatch hfailure⟩

end

end Grammar

end Ebnf
