import Ebnf.Proofs.Sessions

/-! The log as the attempts that it tells of. An attempt and those made in the course of it are a
tree: each begins and ends within the one that it is part of. The log of a run goes through the
trees of its attempts, a line where an attempt begins and one where it ends, the lines of its parts
between them and one step further in; and of all these lines the last ones are kept. -/

namespace Ebnf

/-- An attempt at a node: where it began, whether it matched, and the attempts that are part of it,
in order. -/
inductive AttemptTree where
  | made (id : NodeId) (position : Position) (matched : Bool) (parts : List AttemptTree)

namespace AttemptTree

section

variable {α : Type} (line : Nat → NodeId → TraceEvent → α)

mutual

/-- The line where an attempt begins, the lines of its parts one step deeper, and the line where it
ends. -/
def log (depth : Nat) : AttemptTree → List α
  | .made id position matched parts =>
    line depth id (.tried position) :: logAll (depth + 1) parts ++ [line depth id (.ended matched)]

def logAll (depth : Nat) : List AttemptTree → List α
  | [] => []
  | tree :: trees => tree.log depth ++ logAll depth trees

end

@[simp] theorem logAll_nil (depth : Nat) : logAll line depth [] = [] := by rw [logAll]

theorem logAll_append (depth : Nat) (trees trees' : List AttemptTree) :
    logAll line depth (trees ++ trees') = logAll line depth trees ++ logAll line depth trees' := by
  induction trees with
  | nil => rw [List.nil_append, logAll_nil, List.nil_append]
  | cons tree trees ih => rw [List.cons_append, logAll, logAll, ih, List.append_assoc]

theorem logAll_single (depth : Nat) (id : NodeId) (position : Position) (matched : Bool)
    (parts : List AttemptTree) : logAll line depth [.made id position matched parts] =
      line depth id (.tried position) :: logAll line (depth + 1) parts ++
        [line depth id (.ended matched)] := by
  rw [logAll, logAll_nil, List.append_nil, log]

mutual

theorem map_log {β : Type} (f : α → β) (depth : Nat) (tree : AttemptTree) :
    (tree.log line depth).map f =
      tree.log (fun depth id event => f (line depth id event)) depth := by
  cases tree with
  | made id position matched parts =>
    rw [log, log, List.map_append, List.map_cons, map_logAll f (depth + 1) parts]
    rfl

theorem map_logAll {β : Type} (f : α → β) (depth : Nat) (trees : List AttemptTree) :
    (logAll line depth trees).map f =
      logAll (fun depth id event => f (line depth id event)) depth trees := by
  cases trees with
  | nil => rw [logAll_nil, logAll_nil, List.map_nil]
  | cons tree trees =>
    rw [logAll, logAll, List.map_append, map_log f depth tree, map_logAll f depth trees]

end

end

end AttemptTree

abbrev AttemptTrees := Cursor → Session → List AttemptTree

namespace Attempt

section

variable (attempt : NodeId → Attempt) (trees : NodeId → AttemptTrees)

def treesInTurn : List NodeId → AttemptTrees
  | [], _, _ => []
  | id :: ids, c, s =>
    trees id c s ++
      match attempt id c s with
      | some (some d, s) => treesInTurn ids d s
      | _ => []

def treesFirstOf : List NodeId → AttemptTrees
  | [], _, _ => []
  | id :: ids, c, s =>
    trees id c s ++
      match attempt id c s with
      | some (none, s) => if s.isCommitted then [] else treesFirstOf ids c s
      | _ => []

end

/-- The trees of occurrences up to one that fails or is empty, or for which there is no room. -/
def treesRepeated (attempt : Attempt) (trees : AttemptTrees) (r : Repetition) :
    (fuel count : Nat) → AttemptTrees
  | 0, _, _, _ => []
  | fuel + 1, count, c, s =>
    if r.hasRoom count then
      trees c s ++
        match attempt c s with
        | some (some d, s) =>
          if d.index = c.index then [] else treesRepeated attempt trees r fuel (count + 1) d s
        | _ => []
    else []

end Attempt

namespace Graph

def treesWithin (repeated : NodeId → Attempt) (treesOnce treesRepeated : NodeId → AttemptTrees) :
    NodeKind → AttemptTrees
  | .reference _ (some target), c, s => treesOnce target c s
  | .group children, c, s | .rule _ children, c, s =>
    Attempt.treesInTurn repeated treesRepeated children c s
  | .choice options _ _, c, s =>
    Attempt.treesFirstOf repeated treesRepeated options c { s with cuts := false :: s.cuts }
  | .lookAhead _ (some operand), c, s => treesRepeated operand c s
  | _, _, _ => []

def treesOfAttempt (g : Graph) : (fuel : Nat) → NodeId → AttemptTrees
  | 0, _, _, _ => []
  | fuel + 1, id, c, s =>
    match g.attempt (fuel + 1) id c s with
    | none => []
    | some (result, _) =>
      let trees := fun child => Attempt.treesRepeated (g.attempt fuel child)
        (g.treesOfAttempt fuel child) (g.node child).repetition fuel 0
      [.made id c.position result.isSome
        (treesWithin (g.matchNode fuel) (g.treesOfAttempt fuel) trees (g.node id).kind c
          (s.enter id c.position))]

def treesOfNode (g : Graph) (fuel : Nat) (id : NodeId) : AttemptTrees :=
  Attempt.treesRepeated (g.attempt fuel id) (g.treesOfAttempt fuel id) (g.node id).repetition fuel 0

/-- The trees of a match, of which no log is kept. -/
def treesOfMatch (g : Graph) (root : NodeId) (text : String) : List AttemptTree :=
  let c := Cursor.ofString text
  g.treesOfNode (g.enough c.ahead) root c (.start none)

end Graph

open AttemptTree

/-- Between two sessions the log of some attempts is added, as deep as the first of them is; the
second is as deep again. -/
structure Session.Logs (s : Session) (trees : List AttemptTree) (s' : Session) : Prop where
  depth : s'.depth = s.depth
  trace : s'.trace = s.trace.map fun t => t.append (logAll TraceLine.mk s.depth trees)

namespace Session.Logs

variable {s s' s'' : Session} {trees trees' : List AttemptTree}

theorem nothing (s : Session) : s.Logs [] s := by
  refine ⟨rfl, ?_⟩
  rw [logAll_nil]
  exact Option.map_id'.symm

theorem alike (h : s.Logs trees s') (halike : s'.Alike s'') : s.Logs trees s'' :=
  ⟨halike.depth.trans h.depth, halike.trace.trans h.trace⟩

theorem append (h : s.Logs trees s') (h' : s'.Logs trees' s'') : s.Logs (trees ++ trees') s'' := by
  refine ⟨h'.depth.trans h.depth, ?_⟩
  rw [h'.trace, h.trace, h.depth, logAll_append, Option.map_map]
  congr 1
  funext t
  exact (List.foldl_append ..).symm

theorem made {id : NodeId} {position : Position} (h : (s.enter id position).Logs trees s')
    (matched : Bool) : s.Logs [.made id position matched trees] (s'.leave id matched) := by
  have hdepth : s'.depth - 1 = s.depth := by
    rw [h.depth]
    rfl
  refine ⟨hdepth, ?_⟩
  have hleave : (s'.leave id matched).trace =
      s'.trace.map fun t => t.push ⟨s'.depth - 1, id, .ended matched⟩ := rfl
  have henter : (s.enter id position).trace =
      s.trace.map fun t => t.push ⟨s.depth, id, .tried position⟩ := rfl
  rw [hleave, hdepth, h.trace, henter, Option.map_map, Option.map_map, logAll_single]
  congr 1
  funext t
  have hpush : ∀ (t : Recent TraceLine) (first last : TraceLine) (lines : List TraceLine),
      ((t.push first).append lines).push last = t.append (first :: lines ++ [last]) := by
    intro t first last lines
    rw [Recent.append, Recent.append, List.cons_append, List.foldl_cons, List.foldl_append]
    rfl
  exact hpush t _ _ _

end Session.Logs

namespace Attempt

def Logs (attempt : Attempt) (trees : AttemptTrees) : Prop :=
  ∀ c s result s', attempt c s = some (result, s') → s.Logs (trees c s) s'

variable {attempt : NodeId → Attempt} {trees : NodeId → AttemptTrees}

theorem logs_inTurn (h : ∀ id, (attempt id).Logs (trees id)) (ids : List NodeId) :
    (inTurn attempt ids).Logs (treesInTurn attempt trees ids) := by
  induction ids with
  | nil =>
    rintro c s _ _ ⟨⟩
    exact .nothing s
  | cons id ids ih =>
    intro c s result s' hans
    rw [inTurn] at hans
    rw [treesInTurn]
    rcases hid : attempt id c s with - | ⟨- | d, t⟩ <;> rw [hid] at hans
    · cases hans
    · obtain ⟨-, rfl⟩ := Prod.mk.inj (Option.some.inj hans)
      exact (h id c s _ _ hid).append (.nothing t)
    · exact (h id c s _ _ hid).append (ih d t result s' hans)

theorem logs_firstOf (h : ∀ id, (attempt id).Logs (trees id)) (ids : List NodeId) :
    (firstOf attempt ids).Logs (treesFirstOf attempt trees ids) := by
  induction ids with
  | nil =>
    rintro c s _ _ ⟨⟩
    exact .nothing s
  | cons id ids ih =>
    intro c s result s' hans
    rw [firstOf] at hans
    rw [treesFirstOf]
    rcases hid : attempt id c s with - | ⟨- | d, t⟩ <;> rw [hid] at hans
    · cases hans
    · dsimp only at hans ⊢
      split at hans
      · next hcommitted =>
        obtain ⟨-, rfl⟩ := Prod.mk.inj (Option.some.inj hans)
        rw [if_pos hcommitted]
        exact (h id c s _ _ hid).append (.nothing t)
      · next hcommitted =>
        rw [if_neg hcommitted]
        exact (h id c s _ _ hid).append (ih c t result s' hans)
    · obtain ⟨-, rfl⟩ := Prod.mk.inj (Option.some.inj hans)
      exact (h id c s _ _ hid).append (.nothing t)

theorem logs_repeated {attempt : Attempt} {trees : AttemptTrees} (h : attempt.Logs trees)
    (r : Repetition) (fuel count : Nat) :
    (repeated attempt r fuel count).Logs (treesRepeated attempt trees r fuel count) := by
  induction fuel generalizing count with
  | zero => exact fun _ _ _ _ => nofun
  | succ fuel ih =>
    intro c s result s' hans
    rw [repeated] at hans
    rw [treesRepeated]
    split at hans
    · next hroom =>
      rw [if_pos hroom]
      rcases hid : attempt c s with - | ⟨- | d, t⟩ <;> rw [hid] at hans
      · cases hans
      · obtain ⟨-, rfl⟩ := Prod.mk.inj (Option.some.inj hans)
        exact (h c s _ _ hid).append (.nothing t)
      · dsimp only at hans ⊢
        split at hans
        · next hempty =>
          obtain ⟨-, rfl⟩ := Prod.mk.inj (Option.some.inj hans)
          rw [if_pos hempty]
          exact (h c s _ _ hid).append (.nothing t)
        · next hempty =>
          rw [if_neg hempty]
          exact (h c s _ _ hid).append (ih (count + 1) d t result s' hans)
    · next hroom =>
      cases hans
      rw [if_neg hroom]
      exact .nothing s

end Attempt

namespace Graph

theorem logs_occurrence {once repeated : NodeId → Attempt}
    {treesOnce treesRepeated : NodeId → AttemptTrees} (ho : ∀ id, (once id).Logs (treesOnce id))
    (hr : ∀ id, (repeated id).Logs (treesRepeated id)) (id : NodeId) (kind : NodeKind) :
    (occurrence once repeated id kind).Logs
      (treesWithin repeated treesOnce treesRepeated kind) := by
  intro c s result s' hans
  have hleaves := leaves_of_occurrence hans
  cases kind with
  | terminal | charClass =>
    cases hleaves with
    | alone halike => exact (Session.Logs.nothing s).alike halike
  | cut =>
    cases hleaves with
    | alone halike => exact (Session.Logs.nothing s).alike halike
    | cut halike =>
      have hcut : s.Logs [] s.cut := by
        rw [Session.cut]
        split
        · exact .nothing s
        · exact ⟨rfl, (Session.Logs.nothing s).trace⟩
      exact hcut.alike halike
  | reference rule target =>
    cases target with
    | none =>
      cases hleaves with
      | alone halike => exact (Session.Logs.nothing s).alike halike
    | some target => exact ho target c s result s' hans
  | group children | rule _ children =>
    simp only [occurrence] at hans
    rcases hin : Attempt.inTurn repeated children c s with - | ⟨- | d, t⟩ <;> rw [hin] at hans
    · cases hans
    · obtain ⟨-, rfl⟩ := Prod.mk.inj (Option.some.inj hans)
      exact (Attempt.logs_inTurn hr _ c s _ t hin).alike ⟨rfl, rfl, rfl⟩
    · obtain ⟨-, rfl⟩ := Prod.mk.inj (Option.some.inj hans)
      exact Attempt.logs_inTurn hr _ c s _ t hin
  | choice options =>
    simp only [occurrence] at hans
    split at hans
    · cases hans
    · next ended t hfirst =>
      have hlogs := Attempt.logs_firstOf hr _ c _ _ t hfirst
      cases ended <;> obtain ⟨-, rfl⟩ := Prod.mk.inj (Option.some.inj hans) <;>
        exact ⟨hlogs.depth, hlogs.trace⟩
  | lookAhead positive operand =>
    cases operand with
    | none =>
      cases hleaves with
      | alone halike => exact (Session.Logs.nothing s).alike halike
    | some operand =>
      simp only [occurrence, Attempt.lookAhead] at hans
      split at hans
      · cases hans
      · next ended t hop =>
        have hlogs := hr operand c s _ t hop
        cases ended <;> cases positive <;> obtain ⟨-, rfl⟩ := Prod.mk.inj (Option.some.inj hans) <;>
          exact hlogs.alike ⟨rfl, rfl, rfl⟩

variable {g : Graph}

theorem logs_attempt (fuel : Nat) (id : NodeId) :
    (g.attempt fuel id).Logs (g.treesOfAttempt fuel id) := by
  induction fuel generalizing id with
  | zero => exact fun _ _ _ _ => nofun
  | succ fuel ih =>
    intro c s result s' hans
    rw [treesOfAttempt, hans]
    rw [attempt] at hans
    split at hans
    · cases hans
    · next ended t hocc =>
      obtain ⟨rfl, rfl⟩ := Prod.mk.inj (Option.some.inj hans)
      have hparts := logs_occurrence ih (fun child => Attempt.logs_repeated (ih child)
        (g.node child).repetition fuel 0) id (g.node id).kind c _ ended t hocc
      exact hparts.made ended.isSome

theorem logs_matchNode (fuel : Nat) (id : NodeId) :
    (g.matchNode fuel id).Logs (g.treesOfNode fuel id) :=
  Attempt.logs_repeated (logs_attempt fuel id) _ fuel 0

end Graph

def AttemptTrees.AreStateless (trees : AttemptTrees) : Prop :=
  ∀ c s s', s.Mirrors Eq s' → trees c s = trees c s'

namespace Attempt

variable {attempt : NodeId → Attempt} {trees : NodeId → AttemptTrees}

theorem areStateless_inTurn (ha : ∀ id, (attempt id).Mirrors Eq (attempt id))
    (ht : ∀ id, (trees id).AreStateless) (ids : List NodeId) :
    (treesInTurn attempt trees ids).AreStateless := by
  induction ids with
  | nil => exact fun c s s' _ => rfl
  | cons id ids ih =>
    intro c s s' hs
    have hid := ha id c s s' hs
    rw [treesInTurn, treesInTurn, ht id c s s' hs]
    congr 1
    generalize attempt id c s = answer, attempt id c s' = answer' at hid ⊢
    cases hid with
    | none => rfl
    | some result hs =>
      cases result with
      | none => rfl
      | some d => exact ih d _ _ hs

theorem areStateless_firstOf (ha : ∀ id, (attempt id).Mirrors Eq (attempt id))
    (ht : ∀ id, (trees id).AreStateless) (ids : List NodeId) :
    (treesFirstOf attempt trees ids).AreStateless := by
  induction ids with
  | nil => exact fun c s s' _ => rfl
  | cons id ids ih =>
    intro c s s' hs
    have hid := ha id c s s' hs
    rw [treesFirstOf, treesFirstOf, ht id c s s' hs]
    congr 1
    generalize attempt id c s = answer, attempt id c s' = answer' at hid ⊢
    cases hid with
    | none => rfl
    | some result hs =>
      cases result with
      | some d => rfl
      | none =>
        dsimp only
        rw [hs.isCommitted, ih c _ _ hs]

theorem areStateless_repeated {attempt : Attempt} {trees : AttemptTrees}
    (ha : attempt.Mirrors Eq attempt) (ht : trees.AreStateless) (r : Repetition)
    (fuel count : Nat) : (treesRepeated attempt trees r fuel count).AreStateless := by
  induction fuel generalizing count with
  | zero => exact fun c s s' _ => rfl
  | succ fuel ih =>
    intro c s s' hs
    have hone := ha c s s' hs
    rw [treesRepeated, treesRepeated, ht c s s' hs]
    congr 2
    generalize attempt c s = answer, attempt c s' = answer' at hone ⊢
    cases hone with
    | none => rfl
    | some result hs =>
      cases result with
      | none => rfl
      | some d =>
        dsimp only
        rw [ih (count + 1) d _ _ hs]

end Attempt

namespace Graph

theorem areStateless_within {repeated : NodeId → Attempt}
    {treesOnce treesRepeated : NodeId → AttemptTrees}
    (ha : ∀ id, (repeated id).Mirrors Eq (repeated id)) (ho : ∀ id, (treesOnce id).AreStateless)
    (hr : ∀ id, (treesRepeated id).AreStateless) (kind : NodeKind) :
    (treesWithin repeated treesOnce treesRepeated kind).AreStateless := by
  intro c s s' hs
  cases kind with
  | terminal | charClass | cut => rfl
  | reference rule target =>
    cases target with
    | none => rfl
    | some target => exact ho target c s s' hs
  | group children | rule _ children =>
    exact Attempt.areStateless_inTurn ha hr children c s s' hs
  | choice options =>
    simp only [treesWithin]
    rw [← hs.cuts]
    exact Attempt.areStateless_firstOf ha hr options c _ _ (hs.withCuts _)
  | lookAhead positive operand =>
    cases operand with
    | none => rfl
    | some operand => exact hr operand c s s' hs

variable {g : Graph}

theorem mirrors_attempt_self (g : Graph) (fuel : Nat) (id : NodeId) :
    (g.attempt fuel id).Mirrors Eq (g.attempt fuel id) :=
  g.mirrors_self.attempt fuel rfl

theorem areStateless_attempt (fuel : Nat) (id : NodeId) :
    (g.treesOfAttempt fuel id).AreStateless := by
  induction fuel generalizing id with
  | zero => exact fun c s s' _ => rfl
  | succ fuel ih =>
    intro c s s' hs
    have hparts :=
      areStateless_within (fun child => g.mirrors_self.matchNode fuel (Eq.refl child)) ih
      (fun child => Attempt.areStateless_repeated (g.mirrors_attempt_self fuel child) (ih child)
        (g.node child).repetition fuel 0) (g.node id).kind c _ _ (hs.enter id id c.position)
    have hid := g.mirrors_attempt_self (fuel + 1) id c s s' hs
    rw [treesOfAttempt, treesOfAttempt]
    dsimp only
    rw [hparts]
    generalize g.attempt (fuel + 1) id c s = answer, g.attempt (fuel + 1) id c s' = answer' at hid ⊢
    cases hid with
    | none => rfl
    | some result hs => rfl

theorem areStateless_node (fuel : Nat) (id : NodeId) : (g.treesOfNode fuel id).AreStateless :=
  Attempt.areStateless_repeated (g.mirrors_attempt_self fuel id) (areStateless_attempt fuel id) _
    fuel 0

end Graph

namespace Graph

def traceText (g : Graph) (depth : Nat) (id : NodeId) (event : TraceEvent) : String :=
  String.join (List.replicate depth "  ") ++ (g.node id).kind.describe ++
    match event with
    | .tried position => " at " ++ position.render
    | .ended matched => if matched then " matched" else " failed"

theorem indent_eq (depth : Nat) :
    String.join (List.replicate depth "  ") = String.ofList (List.replicate (2 * depth) ' ') := by
  apply String.toList_injective
  induction depth with
  | zero => rfl
  | succ depth ih =>
    rw [List.replicate_succ, String.join_cons, String.toList_append, ih, Nat.mul_succ, Nat.add_comm,
      List.replicate_add]
    simp only [String.toList_ofList]
    rfl

theorem renderTrace_eq (g : Graph) (depth : Nat) (id : NodeId) (event : TraceEvent) :
    g.renderTrace ⟨depth, id, event⟩ = g.traceText depth id event := by
  cases event with
  | tried position =>
    simp only [renderTrace, traceText, indent_eq, String.append_assoc]
    rfl
  | ended matched =>
    cases matched <;> simp only [renderTrace, traceText, indent_eq, String.append_assoc] <;> rfl

variable {g : Graph} {root : NodeId} {text : String} {outcome : Outcome}

theorem exists_logged (h : g.matchText root text true = some outcome) (log : Recent TraceLine) :
    ∃ result s, g.matchNode (g.enough (Cursor.ofString text).ahead) root (.ofString text)
      (.start (some log)) = some (result, s) ∧
        s.trace = some (log.append (logAll TraceLine.mk 0 (g.treesOfMatch root text))) := by
  have halike := g.mirrors_self.matchNode (g.enough (Cursor.ofString text).ahead) (Eq.refl root)
    (Cursor.ofString text) _ _ (Session.mirrors_start (newLog true) (some log))
  have htrees := areStateless_node (g := g) (g.enough (Cursor.ofString text).ahead) root
    (Cursor.ofString text) _ _ (Session.mirrors_start (some log) none)
  cases hans : g.matchNode (g.enough (Cursor.ofString text).ahead) root (.ofString text)
      (.start (some log)) with
  | some a =>
    obtain ⟨result, s⟩ := a
    refine ⟨result, s, rfl, ?_⟩
    rw [(logs_matchNode _ root _ _ result s hans).trace, htrees]
    rfl
  | none =>
    have hfailure := failure_matchText g root text true
    rw [hans] at halike
    rw [h] at hfailure
    generalize g.matchNode _ root _ (.start (newLog true)) = answer at halike hfailure
    cases halike
    cases hfailure

/-- The log of a match that ends goes through the trees of its attempts, and its outcome shows the
last lines. -/
theorem trace_matchText (h : g.matchText root text true = some outcome) :
    (∀ log, ∃ result s, g.matchNode (g.enough (Cursor.ofString text).ahead) root (.ofString text)
      (.start (some log)) = some (result, s) ∧
        s.trace = some (log.append (logAll TraceLine.mk 0 (g.treesOfMatch root text)))) ∧
    (outcome.trace = let lines := logAll TraceLine.mk 0 (g.treesOfMatch root text)
      lines.drop (lines.length - 4096)) ∧
    outcome.trace.map g.renderTrace = let lines := logAll g.traceText 0 (g.treesOfMatch root text)
      lines.drop (lines.length - 4096) := by
  have hlines : outcome.trace = (logAll TraceLine.mk 0 (g.treesOfMatch root text)).drop
      ((logAll TraceLine.mk 0 (g.treesOfMatch root text)).length - 4096) := by
    obtain ⟨result, s, hans, htrace⟩ := exists_logged h (.empty Outcome.traceCapacity)
    rw [matchText] at h
    have hstart : Session.mk [] [] (if true then some (.empty Outcome.traceCapacity) else none) 0 =
        .start (some (.empty Outcome.traceCapacity)) := rfl
    dsimp only at h
    rw [hstart, hans] at h
    obtain rfl := Option.some.inj h
    dsimp only
    rw [htrace]
    exact Recent.toList_append_empty _ _
  refine ⟨exists_logged h, hlines, ?_⟩
  have htexts : logAll g.traceText 0 (g.treesOfMatch root text) =
      (logAll TraceLine.mk 0 (g.treesOfMatch root text)).map g.renderTrace := by
    rw [map_logAll]
    congr 1
    funext depth id event
    exact (g.renderTrace_eq depth id event).symm
  dsimp only
  rw [htexts, List.length_map, ← List.map_drop, hlines]

def alternativeFirst : Graph where
  nodes := #[.ofKind (.rule "S" [1, 4]) .start,
    .ofKind (.choice [2, 3] (.uniform 2) (.uniform 2)) .start,
    .ofKind (.terminal "b") .start, .ofKind (.terminal "a") .start, .ofKind (.terminal "c") .start]
  finiteRules := []

theorem trace_alternativeFirst : ∃ outcome,
    alternativeFirst.matchText 0 "ac" true = some outcome ∧
      outcome.trace.map alternativeFirst.renderTrace =
        ["Expression: 'S' at 1:1", "  AlternativeExpression at 1:1", "    Terminal: 'b' at 1:1",
          "    Terminal: 'b' failed", "    Terminal: 'a' at 1:1", "    Terminal: 'a' matched",
          "  AlternativeExpression matched", "  Terminal: 'c' at 1:2", "  Terminal: 'c' matched",
          "Expression: 'S' matched"] := by
  have hsome : (alternativeFirst.matchText 0 "ac" true).isSome = true := by decide +kernel
  obtain ⟨outcome, h⟩ := Option.isSome_iff_exists.1 hsome
  refine ⟨outcome, h, ?_⟩
  rw [(trace_matchText h).2.2]
  decide +kernel

end Graph

end Ebnf
