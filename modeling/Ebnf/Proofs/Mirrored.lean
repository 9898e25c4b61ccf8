import Ebnf.Matching
import Ebnf.Generation
import Ebnf.Proofs.Renaming

/-! Graphs that do the same under other numbers. Where the nodes of two graphs stand for each other
in kind, links and bounds, an attempt at the one moves, succeeds and fails as one at the other, and
the two leave failures that read alike; and whatever is drawn, the two write the same text. -/

namespace Ebnf

theorem rel_of_forall₂_toList {α β : Type} {R : α → β → Prop} {x : Option α} {y : Option β}
    (h : List.Forall₂ R x.toList y.toList) : Option.Rel R x y := by
  cases x <;> cases y <;> cases h
  · exact .none
  · next hr _ => exact .some hr

/-- Two kinds of nodes that agree but for numbers, which stand for each other. -/
inductive NodeKind.Mirrors (g g' : Graph) (R : NodeId → NodeId → Prop) :
    NodeKind → NodeKind → Prop
  | terminal (literal : String) : Mirrors g g' R (.terminal literal) (.terminal literal)
  | charClass (set : CharClass) : Mirrors g g' R (.charClass set) (.charClass set)
  | reference {rule : String} {target target' : NodeId} (h : R target target')
      (hfinite : g.isFinite target = g'.isFinite target') :
      Mirrors g g' R (.reference rule (some target)) (.reference rule (some target'))
  | unlinked (rule : String) : Mirrors g g' R (.reference rule none) (.reference rule none)
  | group {children children' : List NodeId} (h : List.Forall₂ R children children') :
      Mirrors g g' R (.group children) (.group children')
  | choice {options options' : List NodeId} {weights escapes : Distribution}
      (h : List.Forall₂ R options options') :
      Mirrors g g' R (.choice options weights escapes) (.choice options' weights escapes)
  | rule (name : String) {children children' : List NodeId}
      (h : List.Forall₂ R children children') :
      Mirrors g g' R (.rule name children) (.rule name children')
  | lookAhead (positive : Bool) {operand operand' : Option NodeId}
      (h : Option.Rel R operand operand') :
      Mirrors g g' R (.lookAhead positive operand) (.lookAhead positive operand')
  | cut : Mirrors g g' R .cut .cut

theorem NodeKind.Mirrors.failureLabel_eq {g g' : Graph} {R : NodeId → NodeId → Prop}
    {k k' : NodeKind} (h : Mirrors g g' R k k') : k.failureLabel = k'.failureLabel := by
  cases h with
  | lookAhead positive => cases positive <;> rfl
  | _ => rfl

theorem NodeKind.mirrors_of_unnumbered_eq {g g' : Graph} {R : NodeId → NodeId → Prop}
    {k k' : NodeKind} (h : k.unnumbered = k'.unnumbered)
    (hchildren : List.Forall₂ R k.children k'.children)
    (hreference : ∀ rule target, k ≠ .reference rule target)
    (hchoice : ∀ options weights escapes, k ≠ .choice options weights escapes) :
    Mirrors g g' R k k' := by
  cases k with
  | terminal literal =>
    cases k' <;> cases h
    exact .terminal literal
  | charClass set =>
    cases k' <;> cases h
    exact .charClass set
  | reference rule target => exact absurd rfl (hreference rule target)
  | group children =>
    cases k' <;> cases h
    exact .group hchildren
  | choice options weights escapes => exact absurd rfl (hchoice options weights escapes)
  | rule name children =>
    cases k' <;> cases h
    exact .rule name hchildren
  | lookAhead positive operand =>
    cases k' <;> cases h
    exact .lookAhead positive (rel_of_forall₂_toList hchildren)
  | cut =>
    cases k' <;> cases h
    exact .cut

structure Graph.Mirrors (g g' : Graph) (R : NodeId → NodeId → Prop) : Prop where
  kind {id id' : NodeId} : R id id' → NodeKind.Mirrors g g' R (g.node id).kind (g'.node id').kind
  repetition {id id' : NodeId} : R id id' → (g.node id).repetition = (g'.node id').repetition
  yield {id id' : NodeId} : R id id' → (g.node id).yield = (g'.node id').yield

variable {R : NodeId → NodeId → Prop}

/-- Failures for the same reason at the same place, of nodes that stand for each other. -/
structure Failed.Mirrors (R : NodeId → NodeId → Prop) (f f' : Failed) : Prop where
  node : Option.Rel R f.node f'.node
  position : f.position = f'.position
  reason : f.reason = f'.reason

structure Session.Mirrors (R : NodeId → NodeId → Prop) (s s' : Session) : Prop where
  cuts : s.cuts = s'.cuts
  failures : List.Forall₂ (Failed.Mirrors R) s.failures s'.failures

namespace Session.Mirrors

variable {s s' : Session} {id id' : NodeId}

theorem fail (h : s.Mirrors R s') {node node' : Option NodeId} (hnode : Option.Rel R node node')
    (position : Position) (reason : Reason) :
    (s.fail node position reason).Mirrors R (s'.fail node' position reason) :=
  ⟨h.cuts, .cons ⟨hnode, rfl, rfl⟩ .nil⟩

theorem failOn (h : s.Mirrors R s') (hid : R id id') (position : Position) (reason : Reason) :
    (s.failOn id position reason).Mirrors R (s'.failOn id' position reason) :=
  ⟨h.cuts, .cons ⟨.some hid, rfl, rfl⟩ h.failures⟩

theorem enter (h : s.Mirrors R s') (id id' : NodeId) (position : Position) :
    (s.enter id position).Mirrors R (s'.enter id' position) := ⟨h.cuts, h.failures⟩

theorem leave (h : s.Mirrors R s') (id id' : NodeId) (matched : Bool) :
    (s.leave id matched).Mirrors R (s'.leave id' matched) := ⟨h.cuts, h.failures⟩

theorem isCommitted (h : s.Mirrors R s') : s.isCommitted = s'.isCommitted := by
  rw [Session.isCommitted, Session.isCommitted, h.cuts]

theorem withCuts (h : s.Mirrors R s') (cuts : List Bool) :
    Mirrors R { s with cuts := cuts } { s' with cuts := cuts } := ⟨rfl, h.failures⟩

theorem cut (h : s.Mirrors R s') : s.cut.Mirrors R s'.cut := by
  rw [Session.cut, Session.cut, ← h.cuts]
  split
  · exact h
  · exact h.withCuts _

end Session.Mirrors

/-- The same result, and sessions that stand for each other. -/
inductive AnswersAlike (R : NodeId → NodeId → Prop) :
    Option (Option Cursor × Session) → Option (Option Cursor × Session) → Prop
  | none : AnswersAlike R none none
  | some {s s' : Session} (result : Option Cursor) (h : s.Mirrors R s') :
      AnswersAlike R (some (result, s)) (some (result, s'))

namespace Attempt

def Mirrors (R : NodeId → NodeId → Prop) (attempt attempt' : Attempt) : Prop :=
  ∀ c s s', s.Mirrors R s' → AnswersAlike R (attempt c s) (attempt' c s')

section Rows

variable {attempt attempt' : NodeId → Attempt} {ids ids' : List NodeId}

theorem mirrors_inTurn (h : ∀ id id', R id id' → (attempt id).Mirrors R (attempt' id'))
    (hids : List.Forall₂ R ids ids') : (inTurn attempt ids).Mirrors R (inTurn attempt' ids') := by
  induction hids with
  | nil => exact fun c s s' hs => .some (some c) hs
  | @cons id id' ids ids' hid _ ih =>
    intro c s s' hs
    have hfirst := h id id' hid c s s' hs
    rw [inTurn, inTurn]
    generalize attempt id c s = answer, attempt' id' c s' = answer' at hfirst ⊢
    cases hfirst with
    | none => exact .none
    | some result hs =>
      cases result with
      | none => exact .some none hs
      | some d => exact ih d _ _ hs

theorem mirrors_firstOf (h : ∀ id id', R id id' → (attempt id).Mirrors R (attempt' id'))
    (hids : List.Forall₂ R ids ids') : (firstOf attempt ids).Mirrors R (firstOf attempt' ids') := by
  induction hids with
  | nil => exact fun c s s' hs => .some none hs
  | @cons id id' ids ids' hid _ ih =>
    intro c s s' hs
    have hfirst := h id id' hid c s s' hs
    rw [firstOf, firstOf]
    generalize attempt id c s = answer, attempt' id' c s' = answer' at hfirst ⊢
    cases hfirst with
    | none => exact .none
    | some result hs =>
      cases result with
      | some d => exact .some (some d) hs
      | none =>
        dsimp only
        rw [← hs.isCommitted]
        split
        · exact .some none hs
        · exact ih c _ _ hs

end Rows

variable {attempt attempt' : Attempt}

theorem mirrors_repeated (h : attempt.Mirrors R attempt') (r : Repetition) (fuel count : Nat) :
    (repeated attempt r fuel count).Mirrors R (repeated attempt' r fuel count) := by
  induction fuel generalizing count with
  | zero => exact fun c s s' hs => .none
  | succ fuel ih =>
    intro c s s' hs
    have hone := h c s s' hs
    rw [repeated, repeated]
    split
    · generalize attempt c s = answer, attempt' c s' = answer' at hone ⊢
      cases hone with
      | none => exact .none
      | some result hs =>
        cases result with
        | none => exact .some _ hs
        | some d =>
          dsimp only
          split
          · exact .some _ hs
          · exact ih (count + 1) d _ _ hs
    · exact .some _ hs

theorem mirrors_lookAhead (h : attempt.Mirrors R attempt') (positive : Bool) {id id' : NodeId}
    (hid : R id id') :
    (lookAhead positive attempt id).Mirrors R (lookAhead positive attempt' id') := by
  intro c s s' hs
  have hone := h c s s' hs
  rw [lookAhead, lookAhead]
  generalize attempt c s = answer, attempt' c s' = answer' at hone ⊢
  cases hone with
  | none => exact .none
  | some result hs =>
    cases result <;> cases positive
    · exact .some _ hs
    · exact .some _ (hs.failOn hid _ _)
    · exact .some _ (hs.fail (.some hid) _ _)
    · exact .some _ hs

end Attempt

namespace Graph

variable {g g' : Graph}

theorem mirrors_occurrence {once once' repeated repeated' : NodeId → Attempt}
    (honce : ∀ id id', R id id' → (once id).Mirrors R (once' id'))
    (hrepeated : ∀ id id', R id id' → (repeated id).Mirrors R (repeated' id')) {id id' : NodeId}
    (hid : R id id') {k k' : NodeKind} (hk : NodeKind.Mirrors g g' R k k') :
    (occurrence once repeated id k).Mirrors R (occurrence once' repeated' id' k') := by
  intro c s s' hs
  cases hk with
  | terminal literal =>
    simp only [occurrence]
    cases c.consume literal.toList with
    | some d => exact .some _ hs
    | none => exact .some _ (hs.fail (.some hid) _ _)
  | charClass set =>
    simp only [occurrence]
    rcases c.next with _ | ⟨ch, d⟩
    · exact .some _ (hs.fail (.some hid) _ _)
    · dsimp only
      split
      · exact .some _ hs
      · exact .some _ (hs.fail (.some hid) _ _)
  | reference htarget => exact honce _ _ htarget c s s' hs
  | unlinked rule => exact .some _ (hs.fail (.some hid) _ _)
  | group hchildren | rule name hchildren =>
    have hall := Attempt.mirrors_inTurn hrepeated hchildren c s s' hs
    simp only [occurrence]
    generalize Attempt.inTurn repeated _ c s = answer,
      Attempt.inTurn repeated' _ c s' = answer' at hall ⊢
    cases hall with
    | none => exact .none
    | some result hs =>
      cases result with
      | none => exact .some _ (hs.failOn hid _ _)
      | some d => exact .some _ hs
  | choice hoptions =>
    have hall := Attempt.mirrors_firstOf hrepeated hoptions c _ _ (hs.withCuts (false :: s.cuts))
    simp only [occurrence]
    rw [← hs.cuts]
    generalize Attempt.firstOf repeated _ c _ = answer,
      Attempt.firstOf repeated' _ c _ = answer' at hall ⊢
    cases hall with
    | none => exact .none
    | @some t t' result ht =>
      have hcuts : ∀ cuts cuts', cuts = cuts' →
          Session.Mirrors R { t with cuts := cuts } { t' with cuts := cuts' } := by
        rintro cuts _ rfl
        exact ht.withCuts cuts
      have hleft := hcuts t.cuts.tail t'.cuts.tail (congrArg List.tail ht.cuts)
      cases result with
      | some d => exact .some _ hleft
      | none =>
        dsimp only
        rw [ht.isCommitted]
        exact .some _ (hleft.failOn hid _ _)
  | lookAhead positive hoperand =>
    cases hoperand with
    | none => exact .some _ hs
    | some hoperand =>
      exact Attempt.mirrors_lookAhead (hrepeated _ _ hoperand) positive hid c s s' hs
  | cut => exact .some _ hs.cut

theorem Mirrors.attempt (h : g.Mirrors g' R) (fuel : Nat) {id id' : NodeId} (hid : R id id') :
    (g.attempt fuel id).Mirrors R (g'.attempt fuel id') := by
  induction fuel generalizing id id' with
  | zero => exact fun c s s' hs => .none
  | succ fuel ih =>
    intro c s s' hs
    have hrepeated : ∀ id id', R id id' →
        (Attempt.repeated (g.attempt fuel id) (g.node id).repetition fuel 0).Mirrors R
          (Attempt.repeated (g'.attempt fuel id') (g'.node id').repetition fuel 0) := by
      intro id id' hid
      rw [← h.repetition hid]
      exact Attempt.mirrors_repeated (ih hid) _ fuel 0
    have hone := mirrors_occurrence (fun id id' hid => ih hid) hrepeated hid (h.kind hid) c _ _
      (hs.enter id id' c.position)
    rw [Graph.attempt, Graph.attempt]
    generalize occurrence _ _ id _ c _ = answer, occurrence _ _ id' _ c _ = answer' at hone ⊢
    cases hone with
    | none => exact .none
    | some result hs => exact .some result (hs.leave id id' _)

theorem Mirrors.matchNode (h : g.Mirrors g' R) (fuel : Nat) {id id' : NodeId} (hid : R id id') :
    (g.matchNode fuel id).Mirrors R (g'.matchNode fuel id') := by
  rw [Graph.matchNode, Graph.matchNode, ← h.repetition hid]
  exact Attempt.mirrors_repeated (h.attempt fuel hid) _ fuel 0

/-- What is said about a match: for each entry why it failed, where, and what was there. -/
def report (g : Graph) (o : Outcome) : Option (List (String × Position × String)) :=
  o.failure.map fun f => f.backtrace.map fun e => (g.failureLabel e, e.position, e.reason.message)

theorem Mirrors.failureLabel_eq (h : g.Mirrors g' R) {f f' : Failed} (hf : f.Mirrors R f') :
    g.failureLabel f = g'.failureLabel f' := by
  obtain ⟨hnode, -, -⟩ := hf
  rw [Graph.failureLabel, Graph.failureLabel]
  generalize f.node = node, f'.node = node' at hnode ⊢
  cases hnode with
  | none => rfl
  | some hid => exact (h.kind hid).failureLabel_eq

theorem Mirrors.entries_eq (h : g.Mirrors g' R) {fs fs' : List Failed}
    (hfs : List.Forall₂ (Failed.Mirrors R) fs fs') :
    fs.map (fun e => (g.failureLabel e, e.position, e.reason.message)) =
      fs'.map fun e => (g'.failureLabel e, e.position, e.reason.message) := by
  induction hfs with
  | nil => rfl
  | cons hf _ ih =>
    rw [List.map_cons, List.map_cons, ih, h.failureLabel_eq hf, hf.position, hf.reason]

theorem Mirrors.matchText_eq (h : g.Mirrors g' R) (hsize : g.size = g'.size) {root root' : NodeId}
    (hroot : R root root') (text : String) (trace trace' : Bool) :
    (g.matchText root text trace).map g.report =
      (g'.matchText root' text trace').map g'.report := by
  have hstart : ∀ log log', Session.Mirrors R ⟨[], [], log, 0⟩ ⟨[], [], log', 0⟩ :=
    fun _ _ => ⟨rfl, .nil⟩
  have henough : g.enough = g'.enough := by
    funext text
    rw [enough, enough, hsize]
  have hmatch := h.matchNode (g'.enough (Cursor.ofString text).ahead) hroot (.ofString text) _ _
    (hstart (if trace then some (.empty Outcome.traceCapacity) else none)
      (if trace' then some (.empty Outcome.traceCapacity) else none))
  rw [matchText, matchText, henough]
  dsimp only
  generalize g.matchNode _ root _ _ = answer, g'.matchNode _ root' _ _ = answer' at hmatch ⊢
  cases hmatch with
  | none => rfl
  | some result hs =>
    refine congrArg some ?_
    cases result with
    | none => exact congrArg some (h.entries_eq (List.rel_reverse hs.failures))
    | some d =>
      dsimp only [report]
      split
      · have hrest := hs.fail .none d.position (.unmatched d.ahead)
        exact congrArg some (h.entries_eq (List.rel_reverse hrest.failures))
      · rfl

end Graph

namespace Writer

variable {σ : Type}

theorem inTurn_eq {write write' : NodeId → Writer σ} {ids ids' : List NodeId}
    (h : ∀ id id', R id id' → write id = write' id') (hids : List.Forall₂ R ids ids') :
    inTurn write ids = inTurn write' ids' := by
  induction hids with
  | nil => rfl
  | cons hid _ ih =>
    funext d
    rw [inTurn, inTurn, h _ _ hid, ih]

end Writer

namespace Graph

variable {g g' : Graph} {σ : Type}

theorem writeOccurrence_eq (settings : EngineSettings) (chance : Chance σ) (depth : Nat)
    {once once' repeated repeated' : NodeId → Writer σ}
    (honce : ∀ id id', R id id' → once id = once' id')
    (hrepeated : ∀ id id', R id id' → repeated id = repeated' id') {k k' : NodeKind}
    (hk : NodeKind.Mirrors g g' R k k') :
    g.writeOccurrence settings chance depth once repeated k =
      g'.writeOccurrence settings chance depth once' repeated' k' := by
  funext d
  cases hk with
  | reference htarget hfinite => simp only [writeOccurrence, hfinite, honce _ _ htarget]
  | group hchildren | rule name hchildren =>
    simp only [writeOccurrence, Writer.inTurn_eq hrepeated hchildren]
  | @choice options options' weights escapes hoptions =>
    rw [writeOccurrence, writeOccurrence]
    generalize chance.item (if settings.depthLimit < depth then escapes else weights) d.chance =
      drawn
    obtain ⟨- | i, state⟩ := drawn
    · rfl
    · have hrel := rel_getElem? hoptions i
      simp only [Option.bind_some]
      generalize options[i]? = option, options'[i]? = option' at hrel ⊢
      cases hrel with
      | none => rfl
      | some hid => exact congrFun (hrepeated _ _ hid) _
  | _ => rfl

theorem Mirrors.writeRepeated_eq (h : g.Mirrors g' R) (settings : EngineSettings)
    (chance : Chance σ) {once once' : NodeId → Writer σ}
    (honce : ∀ id id', R id id' → once id = once' id') {id id' : NodeId} (hid : R id id') :
    g.writeRepeated settings chance once id = g'.writeRepeated settings chance once' id' := by
  funext d
  rw [writeRepeated, writeRepeated, h.yield hid, honce id id' hid]

theorem Mirrors.writeOnce_eq (h : g.Mirrors g' R) (settings : EngineSettings) (chance : Chance σ)
    (fuel depth : Nat) {id id' : NodeId} (hid : R id id') :
    g.writeOnce settings chance fuel depth id = g'.writeOnce settings chance fuel depth id' := by
  induction fuel generalizing depth id id' with
  | zero => rfl
  | succ fuel ih =>
    funext d
    rw [writeOnce, writeOnce]
    refine congrFun (writeOccurrence_eq settings chance depth (fun _ _ hid => ih depth hid) ?_
      (h.kind hid)) d
    exact fun _ _ hid => h.writeRepeated_eq settings chance (fun _ _ hid => ih (depth + 1) hid) hid

theorem Mirrors.generate_eq (h : g.Mirrors g' R) (settings : EngineSettings) (chance : Chance σ)
    (fuel : Nat) {root root' : NodeId} (hroot : R root root') :
    g.generate settings chance fuel root = g'.generate settings chance fuel root' := by
  funext state
  rw [generate, generate, writeNode, writeNode]
  rw [h.writeRepeated_eq settings chance (fun _ _ hid => h.writeOnce_eq settings chance fuel _ hid)
    hroot]

end Graph

end Ebnf
