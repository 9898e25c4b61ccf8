import Ebnf.Proofs.Attempts
import Ebnf.Proofs.Mirrored
import Ebnf.Proofs.Offsets

/-! What a session holds decides nothing. Flags that callers and siblings have raised, the chain of
an earlier failure, the log and its depth are all carried along and written to by every attempt, and
still whether an attempt matches, and where, hangs on its place alone. The log is not read at all:
with and without one a match fails for the same reasons. -/

namespace Ebnf

/-- At a place an attempt has one answer for all sessions: where it ends, if it matches, and whether
it raises the innermost flag. -/
def Attempt.IsStatelessAt (attempt : Attempt) (c : Cursor) : Prop :=
  ∃ answer : Option (Option Cursor × Bool), ∀ s,
    (attempt c s).map (fun a => (a.1, a.2.cuts)) =
      answer.map fun a => (a.1, raiseCut a.2 s.cuts)

namespace Attempt

variable {attempt : Attempt} {c : Cursor}

theorem Follows.isStatelessAt {text : List Char} {read : Reader} (h : attempt.Follows text read)
    (k : Nat) : attempt.IsStatelessAt (.atOffset text k) := by
  rw [← Cursor.atOffset_min]
  refine ⟨(read (min k text.length)).map fun r => (r.1.map (Cursor.atOffset text), r.2),
    fun s => ?_⟩
  have hagrees := h (min k text.length) (Nat.min_le_right _ _) s
  rcases hread : read (min k text.length) with - | ⟨e, raised⟩ <;> rw [hread] at hagrees
  · have hnone : attempt (.atOffset text (min k text.length)) s = none := hagrees
    rw [hnone]
    rfl
  · obtain ⟨-, t, hanswer, hcuts⟩ := hagrees
    rw [hanswer]
    exact congrArg (fun cuts => some (e.map (Cursor.atOffset text), cuts)) hcuts

theorem IsStatelessAt.result_eq (h : attempt.IsStatelessAt c) (s s' : Session) :
    (attempt c s).map Prod.fst = (attempt c s').map Prod.fst := by
  obtain ⟨answer, hanswer⟩ := h
  have hresult : ∀ s, (attempt c s).map Prod.fst = answer.map Prod.fst := by
    intro s
    have hfirst := congrArg (Option.map Prod.fst) (hanswer s)
    simpa only [Option.map_map, Function.comp_def] using hfirst
  rw [hresult s, hresult s']

end Attempt

theorem Graph.mirrors_self (g : Graph) : g.Mirrors g Eq where
  kind {id id'} h := by
    subst h
    have hsame : ∀ ids : List NodeId, List.Forall₂ Eq ids ids := fun ids => List.forall₂_refl ids
    cases (g.node id).kind with
    | terminal literal => exact .terminal literal
    | charClass set => exact .charClass set
    | reference rule target =>
      cases target with
      | none => exact .unlinked rule
      | some target => exact .reference rfl rfl
    | group children => exact .group (hsame children)
    | choice options weights escapes => exact .choice (hsame options)
    | rule name children => exact .rule name (hsame children)
    | lookAhead positive operand =>
      cases operand with
      | none => exact .lookAhead positive .none
      | some operand => exact .lookAhead positive (.some rfl)
    | cut => exact .cut
  repetition h := congrArg (fun id => (g.node id).repetition) h
  yield h := congrArg (fun id => (g.node id).yield) h

theorem Failed.Mirrors.eq {f f' : Failed} (h : f.Mirrors Eq f') : f = f' := by
  obtain ⟨node, position, reason⟩ := f
  obtain ⟨node', position', reason'⟩ := f'
  obtain ⟨hnode, hposition, hreason⟩ := h
  have hsame : node = node' := by
    cases hnode with
    | none => rfl
    | some hid => rw [hid]
  exact (Failed.mk.injEq ..).mpr ⟨hsame, hposition, hreason⟩

namespace Session

theorem Mirrors.failures_eq {s s' : Session} (h : s.Mirrors Eq s') : s.failures = s'.failures := by
  have hsame : List.Forall₂ Eq s.failures s'.failures := h.failures.imp fun _ _ hf => hf.eq
  rwa [List.forall₂_eq_eq_eq] at hsame

theorem mirrors_start (log log' : Option (Recent TraceLine)) :
    (start log).Mirrors Eq (start log') :=
  ⟨rfl, .nil⟩

end Session

namespace Graph

theorem failure_matchText (g : Graph) (root : NodeId) (text : String) (trace : Bool) :
    (g.matchText root text trace).map Outcome.failure =
      (g.matchNode (g.enough (Cursor.ofString text).ahead) root (Cursor.ofString text)
        (.start (newLog trace))).map fun a =>
          a.1.elim (some ⟨a.2.failures.reverse⟩) fun d =>
            if d.hasNext then some ⟨[⟨none, d.position, .unmatched d.ahead⟩]⟩ else none := by
  have hstart : Session.mk [] [] (if trace then some (.empty Outcome.traceCapacity) else none) 0 =
      .start (newLog trace) := rfl
  unfold matchText
  dsimp only
  rw [hstart]
  rcases g.matchNode (g.enough (Cursor.ofString text).ahead) root (Cursor.ofString text)
    (.start (newLog trace)) with - | ⟨- | d, s⟩ <;> rfl

/-- On every graph, whatever its nodes refer to, an attempt matches and ends alike in all sessions,
be it at one occurrence of a node or at all of them; and a text fails alike with and without a log,
entry for entry. -/
theorem matching_stateless (g : Graph) :
    (∀ (fuel : Nat) (id : NodeId) (text : List Char) (k : Nat) (s s' : Session),
      (g.attempt fuel id (.atOffset text k) s).map Prod.fst =
          (g.attempt fuel id (.atOffset text k) s').map Prod.fst ∧
        (g.matchNode fuel id (.atOffset text k) s).map Prod.fst =
          (g.matchNode fuel id (.atOffset text k) s').map Prod.fst) ∧
    ∀ (root : NodeId) (text : String), (g.matchText root text true).map Outcome.failure =
      (g.matchText root text false).map Outcome.failure := by
  refine ⟨fun fuel id text k s s' => ⟨?_, ?_⟩, fun root text => ?_⟩
  · exact ((follows_attempt fuel id).isStatelessAt k).result_eq s s'
  · exact ((follows_matchNode fuel id).isStatelessAt k).result_eq s s'
  · have halike := g.mirrors_self.matchNode (g.enough (Cursor.ofString text).ahead)
      (rfl : root = root) (Cursor.ofString text) _ _
      (Session.mirrors_start (newLog true) (newLog false))
    rw [failure_matchText, failure_matchText]
    generalize g.matchNode _ root _ (.start (newLog true)) = logged,
      g.matchNode _ root _ (.start (newLog false)) = plain at halike ⊢
    cases halike with
    | none => rfl
    | some result hs => simp only [Option.map_some, hs.failures_eq]

end Graph

end Ebnf
