import Ebnf.Proofs.Forest
import Ebnf.Proofs.Reading.Exact

/-! The attempts of a run. An attempt at a node makes attempts at its parts, each of them at a place
and in a session that the attempts before it have left, and while it does so it goes on itself. The
log of a run shows no other attempts than these. -/

namespace Ebnf

namespace Attempt

section

variable (attempt : NodeId → Attempt)

/-- Of a row of attempts in turn, the one at a node begins at a place and in a session. All before
it have matched. -/
inductive MadeInTurn : List NodeId → Cursor → Session → NodeId → Cursor → Session → Prop
  | first {id : NodeId} {ids : List NodeId} {c : Cursor} {s : Session} :
    MadeInTurn (id :: ids) c s id c s
  | later {id x : NodeId} {ids : List NodeId} {c d e : Cursor} {s t u : Session} :
    attempt id c s = some (some d, t) → MadeInTurn ids d t x e u → MadeInTurn (id :: ids) c s x e u

/-- Of the attempts of which the first that matches counts, the one at a node begins in a session.
None before it has matched, and no cut has been raised. -/
inductive MadeFirstOf (c : Cursor) : List NodeId → Session → NodeId → Session → Prop
  | first {id : NodeId} {ids : List NodeId} {s : Session} : MadeFirstOf c (id :: ids) s id s
  | later {id x : NodeId} {ids : List NodeId} {s t u : Session} :
    attempt id c s = some (none, t) → t.isCommitted = false → MadeFirstOf c ids t x u →
      MadeFirstOf c (id :: ids) s x u

end

inductive Made (attempt : Attempt) (r : Repetition) :
    (fuel count : Nat) → Cursor → Session → Cursor → Session → Prop
  | first {fuel count : Nat} {c : Cursor} {s : Session} : r.hasRoom count = true →
    Made attempt r (fuel + 1) count c s c s
  | later {fuel count : Nat} {c d e : Cursor} {s t u : Session} : r.hasRoom count = true →
    attempt c s = some (some d, t) → d.index ≠ c.index →
      Made attempt r fuel (count + 1) d t e u → Made attempt r (fuel + 1) count c s e u

/-! What holds of the session at first and is kept by every attempt of a row holds when the row
ends, and whenever one of its attempts begins. -/

section

variable {attempt : NodeId → Attempt} {P : Session → Prop} {ids : List NodeId} {x : NodeId}
  {c d : Cursor} {s s' t : Session} {result : Option Cursor}

theorem inTurn_induct (hs : P s)
    (h : ∀ x d t result u, MadeInTurn attempt ids c s x d t → P t →
      attempt x d t = some (result, u) → P u)
    (hans : inTurn attempt ids c s = some (result, s')) : P s' := by
  induction ids generalizing c s with
  | nil =>
    obtain ⟨-, rfl⟩ := Prod.mk.inj (Option.some.inj hans)
    exact hs
  | cons id ids ih =>
    rw [inTurn] at hans
    rcases hid : attempt id c s with - | ⟨- | d, t⟩ <;> rw [hid] at hans
    · cases hans
    · obtain ⟨-, rfl⟩ := Prod.mk.inj (Option.some.inj hans)
      exact h id c s none t .first hs hid
    · refine ih (h id c s (some d) t .first hs hid) (fun x e u result v hmade => ?_) hans
      exact h x e u result v (.later hid hmade)

theorem firstOf_induct (hs : P s)
    (h : ∀ x t result u, MadeFirstOf attempt c ids s x t → P t →
      attempt x c t = some (result, u) → P u)
    (hans : firstOf attempt ids c s = some (result, s')) : P s' := by
  induction ids generalizing s with
  | nil =>
    obtain ⟨-, rfl⟩ := Prod.mk.inj (Option.some.inj hans)
    exact hs
  | cons id ids ih =>
    rw [firstOf] at hans
    rcases hid : attempt id c s with - | ⟨- | d, t⟩ <;> rw [hid] at hans
    · cases hans
    · have ht := h id s none t .first hs hid
      cases hcommitted : t.isCommitted with
      | true =>
        simp only [hcommitted, if_true] at hans
        obtain ⟨-, rfl⟩ := Prod.mk.inj (Option.some.inj hans)
        exact ht
      | false =>
        simp only [hcommitted] at hans
        refine ih ht (fun x u result v hmade => ?_) hans
        exact h x u result v (.later hid hcommitted hmade)
    · obtain ⟨-, rfl⟩ := Prod.mk.inj (Option.some.inj hans)
      exact h id s (some d) t .first hs hid

theorem repeated_induct {attempt : Attempt} {r : Repetition} {fuel count : Nat} (hs : P s)
    (h : ∀ d t result u, Made attempt r fuel count c s d t → P t →
      attempt d t = some (result, u) → P u)
    (hans : repeated attempt r fuel count c s = some (result, s')) : P s' := by
  induction fuel generalizing count c s with
  | zero => cases hans
  | succ fuel ih =>
    rw [repeated] at hans
    split at hans
    · next hroom =>
      rcases hid : attempt c s with - | ⟨- | d, t⟩ <;> rw [hid] at hans
      · cases hans
      · obtain ⟨-, rfl⟩ := Prod.mk.inj (Option.some.inj hans)
        exact h c s none t (.first hroom) hs hid
      · have ht := h c s (some d) t (.first hroom) hs hid
        by_cases hindex : d.index = c.index
        · simp only [hindex, if_true] at hans
          obtain ⟨-, rfl⟩ := Prod.mk.inj (Option.some.inj hans)
          exact ht
        · simp only [if_neg hindex] at hans
          refine ih ht (fun e u result v hmade => ?_) hans
          exact h e u result v (.later hroom hid hindex hmade)
    · obtain ⟨-, rfl⟩ := Prod.mk.inj (Option.some.inj hans)
      exact hs

theorem MadeInTurn.mem (h : MadeInTurn attempt ids c s x d t) : x ∈ ids := by
  induction h with
  | first => exact List.mem_cons_self
  | later _ _ ih => exact List.mem_cons_of_mem _ ih

theorem MadeFirstOf.mem (h : MadeFirstOf attempt c ids s x t) : x ∈ ids := by
  induction h with
  | first => exact List.mem_cons_self
  | later _ _ _ ih => exact List.mem_cons_of_mem _ ih

theorem MadeInTurn.induct (h : MadeInTurn attempt ids c s x d t)
    (hstep : ∀ y e u result v, P u → attempt y e u = some (result, v) → P v) (hs : P s) : P t := by
  induction h with
  | first => exact hs
  | later hid _ ih => exact ih (hstep _ _ _ _ _ hs hid)

theorem MadeFirstOf.induct (h : MadeFirstOf attempt c ids s x t)
    (hstep : ∀ y e u result v, P u → attempt y e u = some (result, v) → P v) (hs : P s) : P t := by
  induction h with
  | first => exact hs
  | later hid _ _ ih => exact ih (hstep _ _ _ _ _ hs hid)

theorem Made.induct {attempt : Attempt} {r : Repetition} {fuel count : Nat}
    (h : Made attempt r fuel count c s d t)
    (hstep : ∀ e u result v, P u → attempt e u = some (result, v) → P v) (hs : P s) : P t := by
  induction h with
  | first => exact hs
  | later _ hid _ _ ih => exact ih (hstep _ _ _ _ hs hid)

end

end Attempt

structure Session.Alike (s s' : Session) : Prop where
  cuts : s'.cuts = s.cuts
  depth : s'.depth = s.depth
  trace : s'.trace = s.trace

theorem Session.Alike.refl (s : Session) : s.Alike s := ⟨rfl, rfl, rfl⟩

namespace Graph

inductive Leaves (once repeated : NodeId → Attempt) (c : Cursor) (s s' : Session) : NodeKind → Prop
  | alone {kind : NodeKind} : s.Alike s' → Leaves once repeated c s s' kind
  | cut : s.cut.Alike s' → Leaves once repeated c s s' .cut
  | reference {rule : String} {target : NodeId} {result : Option Cursor} :
    once target c s = some (result, s') →
      Leaves once repeated c s s' (.reference rule (some target))
  | group {children : List NodeId} {result : Option Cursor} {t : Session} :
    Attempt.inTurn repeated children c s = some (result, t) → t.Alike s' →
      Leaves once repeated c s s' (.group children)
  | rule {name : String} {children : List NodeId} {result : Option Cursor} {t : Session} :
    Attempt.inTurn repeated children c s = some (result, t) → t.Alike s' →
      Leaves once repeated c s s' (.rule name children)
  | choice {options : List NodeId} {weights escapes : Distribution} {result : Option Cursor}
      {t : Session} :
    Attempt.firstOf repeated options c { s with cuts := false :: s.cuts } = some (result, t) →
      { t with cuts := t.cuts.tail }.Alike s' →
        Leaves once repeated c s s' (.choice options weights escapes)
  | operand {positive : Bool} {operand : NodeId} {result : Option Cursor} {t : Session} :
    repeated operand c s = some (result, t) → t.Alike s' →
      Leaves once repeated c s s' (.lookAhead positive (some operand))

theorem leaves_of_occurrence {once repeated : NodeId → Attempt} {id : NodeId} {kind : NodeKind}
    {c : Cursor} {s s' : Session} {result : Option Cursor}
    (h : occurrence once repeated id kind c s = some (result, s')) :
    Leaves once repeated c s s' kind := by
  cases kind with
  | terminal l =>
    simp only [occurrence] at h
    split at h <;> obtain ⟨-, rfl⟩ := Prod.mk.inj (Option.some.inj h) <;>
      exact .alone ⟨rfl, rfl, rfl⟩
  | charClass set =>
    simp only [occurrence] at h
    split at h
    · split at h <;> obtain ⟨-, rfl⟩ := Prod.mk.inj (Option.some.inj h) <;>
        exact .alone ⟨rfl, rfl, rfl⟩
    · obtain ⟨-, rfl⟩ := Prod.mk.inj (Option.some.inj h)
      exact .alone ⟨rfl, rfl, rfl⟩
  | reference rule target =>
    cases target with
    | none =>
      obtain ⟨-, rfl⟩ := Prod.mk.inj (Option.some.inj h)
      exact .alone ⟨rfl, rfl, rfl⟩
    | some target => exact .reference h
  | group children =>
    simp only [occurrence] at h
    split at h
    · next t hin =>
      obtain ⟨-, rfl⟩ := Prod.mk.inj (Option.some.inj h)
      exact .group hin ⟨rfl, rfl, rfl⟩
    · exact .group h (.refl s')
  | rule name children =>
    simp only [occurrence] at h
    split at h
    · next t hin =>
      obtain ⟨-, rfl⟩ := Prod.mk.inj (Option.some.inj h)
      exact .rule hin ⟨rfl, rfl, rfl⟩
    · exact .rule h (.refl s')
  | choice options weights escapes =>
    simp only [occurrence] at h
    split at h
    · cases h
    · next ended t hfirst =>
      cases ended <;> obtain ⟨-, rfl⟩ := Prod.mk.inj (Option.some.inj h) <;>
        exact .choice hfirst ⟨rfl, rfl, rfl⟩
  | lookAhead positive operand =>
    cases operand with
    | none =>
      obtain ⟨-, rfl⟩ := Prod.mk.inj (Option.some.inj h)
      exact .alone (.refl s)
    | some operand =>
      simp only [occurrence, Attempt.lookAhead] at h
      split at h
      · cases h
      · next ended t hop =>
        cases ended <;> cases positive <;> obtain ⟨-, rfl⟩ := Prod.mk.inj (Option.some.inj h) <;>
          exact .operand hop ⟨rfl, rfl, rfl⟩
  | cut =>
    obtain ⟨-, rfl⟩ := Prod.mk.inj (Option.some.inj h)
    exact .cut (.refl _)

end Graph

structure Session.Keeps (s s' : Session) : Prop where
  depth : s'.depth = s.depth
  cuts : ∃ raised, s'.cuts = raiseCut raised s.cuts

namespace Session.Keeps

variable {s s' s'' : Session}

theorem refl (s : Session) : s.Keeps s := ⟨rfl, false, (raiseCut_false _).symm⟩

theorem trans (h : s.Keeps s') (h' : s'.Keeps s'') : s.Keeps s'' := by
  obtain ⟨a, ha⟩ := h.cuts
  obtain ⟨b, hb⟩ := h'.cuts
  exact ⟨h'.depth.trans h.depth, a || b, by rw [hb, ha, raiseCut_raiseCut]⟩

theorem exists_pushed (h : { s with cuts := false :: s.cuts }.Keeps s') :
    ∃ flag, s'.cuts = flag :: s.cuts := by
  obtain ⟨raised, hcuts⟩ := h.cuts
  exact ⟨_, hcuts⟩

end Session.Keeps

theorem Session.Alike.keeps {s s' : Session} (h : s.Alike s') : s.Keeps s' :=
  ⟨h.depth, false, by rw [h.cuts, raiseCut_false]⟩

namespace Attempt

def Keeps (attempt : Attempt) : Prop :=
  ∀ c s result s', attempt c s = some (result, s') → s.Keeps s'

variable {attempt : NodeId → Attempt}

theorem keeps_inTurn (h : ∀ id, (attempt id).Keeps) (ids : List NodeId) :
    (inTurn attempt ids).Keeps := fun _ s _ _ =>
  inTurn_induct (.refl s) fun x _ _ _ _ _ hkeeps hans => hkeeps.trans (h x _ _ _ _ hans)

theorem keeps_firstOf (h : ∀ id, (attempt id).Keeps) (ids : List NodeId) :
    (firstOf attempt ids).Keeps := fun _ s _ _ =>
  firstOf_induct (.refl s) fun x _ _ _ _ hkeeps hans => hkeeps.trans (h x _ _ _ _ hans)

theorem keeps_repeated {attempt : Attempt} (h : attempt.Keeps) (r : Repetition)
    (fuel count : Nat) : (repeated attempt r fuel count).Keeps := fun _ s _ _ =>
  repeated_induct (.refl s) fun _ _ _ _ _ hkeeps hans => hkeeps.trans (h _ _ _ _ hans)

theorem keeps_occurrence {once : NodeId → Attempt} (ho : ∀ id, (once id).Keeps)
    (hr : ∀ id, (attempt id).Keeps) (id : NodeId) (kind : NodeKind) :
    (Graph.occurrence once attempt id kind).Keeps := by
  intro c s result s' hans
  cases Graph.leaves_of_occurrence hans with
  | alone halike => exact halike.keeps
  | cut halike =>
    have hcut : s.Keeps s.cut := by
      refine ⟨?_, true, s.cuts_cut⟩
      rw [Session.cut]
      split <;> rfl
    exact hcut.trans halike.keeps
  | reference hans => exact ho _ c s _ s' hans
  | group hin halike | rule hin halike => exact (keeps_inTurn hr _ c s _ _ hin).trans halike.keeps
  | choice hfirst halike =>
    have hkeeps := keeps_firstOf hr _ c _ _ _ hfirst
    obtain ⟨flag, hcuts⟩ := hkeeps.exists_pushed
    refine ⟨halike.depth.trans hkeeps.depth, false, ?_⟩
    rw [halike.cuts, hcuts, List.tail_cons, raiseCut_false]
  | operand hop halike => exact (hr _ c s _ _ hop).trans halike.keeps

end Attempt

namespace Graph

variable {g : Graph}

theorem keeps_attempt (fuel : Nat) (id : NodeId) : (g.attempt fuel id).Keeps := by
  induction fuel generalizing id with
  | zero => exact fun _ _ _ _ => nofun
  | succ fuel ih =>
    intro c s result s' hans
    rw [attempt] at hans
    split at hans
    · cases hans
    · next result t hocc =>
      have hkeeps := Attempt.keeps_occurrence ih (fun child => Attempt.keeps_repeated (ih child)
        (g.node child).repetition fuel 0) id (g.node id).kind c _ result t hocc
      obtain ⟨-, rfl⟩ := Prod.mk.inj (Option.some.inj hans)
      refine ⟨?_, hkeeps.cuts⟩
      rw [Session.leave, Session.record, hkeeps.depth]
      rfl

theorem keeps_matchNode (fuel : Nat) (id : NodeId) : (g.matchNode fuel id).Keeps :=
  Attempt.keeps_repeated (keeps_attempt fuel id) _ fuel 0

end Graph

structure Ongoing where
  node : NodeId
  cuts : List Bool

namespace Graph

section

variable (g : Graph)

/-- An attempt at a node, at a place and in a session, comes to one of its children: where it begins
with the first occurrence of that child, and in which session. -/
inductive Begins (fuel : Nat) (id : NodeId) (c : Cursor) (s : Session) :
    NodeId → Cursor → Session → Prop
  | group {children : List NodeId} {x : NodeId} {d : Cursor} {t : Session} :
    (g.node id).kind = .group children →
      Attempt.MadeInTurn (g.matchNode fuel) children c (s.enter id c.position) x d t →
        Begins fuel id c s x d t
  | rule {name : String} {children : List NodeId} {x : NodeId} {d : Cursor} {t : Session} :
    (g.node id).kind = .rule name children →
      Attempt.MadeInTurn (g.matchNode fuel) children c (s.enter id c.position) x d t →
        Begins fuel id c s x d t
  | choice {options : List NodeId} {weights escapes : Distribution} {x : NodeId} {t : Session} :
    (g.node id).kind = .choice options weights escapes →
      Attempt.MadeFirstOf (g.matchNode fuel) c options
          { s.enter id c.position with cuts := false :: s.cuts } x t →
        Begins fuel id c s x c t
  | operand {positive : Bool} {operand : NodeId} :
    (g.node id).kind = .lookAhead positive (some operand) →
      Begins fuel id c s operand c (s.enter id c.position)

/-- A run tries one occurrence of a node with some fuel left, at a place and in a session, while
other attempts go on, the innermost of them first. -/
inductive Tries (fuel₀ : Nat) (root : NodeId) (c₀ : Cursor) (s₀ : Session) :
    List Ongoing → Nat → NodeId → Cursor → Session → Prop
  | root {c : Cursor} {s : Session} :
    Attempt.Made (g.attempt fuel₀ root) (g.node root).repetition fuel₀ 0 c₀ s₀ c s →
      Tries fuel₀ root c₀ s₀ [] fuel₀ root c s
  | part {under : List Ongoing} {fuel : Nat} {id x : NodeId} {c d e : Cursor} {s t u : Session} :
    Tries fuel₀ root c₀ s₀ under (fuel + 1) id c s → g.Begins fuel id c s x d t →
      Attempt.Made (g.attempt fuel x) (g.node x).repetition fuel 0 d t e u →
        Tries fuel₀ root c₀ s₀ (⟨id, s.cuts⟩ :: under) fuel x e u
  | reference {under : List Ongoing} {fuel : Nat} {id target : NodeId} {rule : String} {c : Cursor}
      {s : Session} :
    Tries fuel₀ root c₀ s₀ under (fuel + 1) id c s →
      (g.node id).kind = .reference rule (some target) →
        Tries fuel₀ root c₀ s₀ (⟨id, s.cuts⟩ :: under) fuel target c (s.enter id c.position)

end

variable {g : Graph} {fuel₀ fuel : Nat} {root id x : NodeId} {c₀ c d : Cursor} {s₀ s t : Session}
  {under : List Ongoing}

theorem Begins.hasChild (h : g.Begins fuel id c s x d t) : g.HasChild id x := by
  rw [HasChild]
  cases h with
  | group hk hmade | rule hk hmade =>
    rw [hk]
    exact hmade.mem
  | choice hk hmade =>
    rw [hk]
    exact hmade.mem
  | operand hk => simp [hk, NodeKind.children]

theorem Begins.keeps (h : g.Begins fuel id c s x d t) :
    (if (g.node id).kind.isChoice then { s.enter id c.position with cuts := false :: s.cuts }
      else s.enter id c.position).Keeps t := by
  have hstep : ∀ (s : Session) (y : NodeId) (e : Cursor) (u : Session) (result : Option Cursor)
      (v : Session), s.Keeps u → g.matchNode fuel y e u = some (result, v) → s.Keeps v :=
    fun s y e u result v hkeeps hans => hkeeps.trans (keeps_matchNode fuel y e u result v hans)
  cases h with
  | group hk hmade | rule hk hmade =>
    simp only [hk]
    exact hmade.induct (hstep _) (.refl _)
  | choice hk hmade =>
    simp only [hk]
    exact hmade.induct (hstep _) (.refl _)
  | operand hk =>
    simp only [hk]
    exact .refl _

theorem keeps_of_made (h : Attempt.Made (g.attempt fuel x) (g.node x).repetition fuel 0 c s d t) :
    s.Keeps t :=
  h.induct (fun _ _ _ _ hkeeps hans => hkeeps.trans (keeps_attempt fuel x _ _ _ _ hans)) (.refl s)

theorem Tries.depth_eq (h : g.Tries fuel₀ root c₀ s₀ under fuel id c s) :
    s.depth = s₀.depth + under.length := by
  induction h with
  | root hmade => exact (keeps_of_made hmade).depth
  | @part under fuel id x c d e s t u _ hbegins hmade ih =>
    have hopened := hbegins.keeps.depth
    rw [(keeps_of_made hmade).depth, hopened, List.length_cons, ← Nat.add_assoc, ← ih]
    split <;> rfl
  | reference _ _ ih =>
    rw [List.length_cons, ← Nat.add_assoc, ← ih]
    rfl

end Graph

namespace Recent

theorem mem_toList_push {α : Type} {r : Recent α} {a b : α} (h : b ∈ (r.push a).toList) :
    b = a ∨ b ∈ r.toList := by
  have htake : b ∈ (a :: r.newest).take r.capacity := by
    rw [toList, last, capacity_push, Nat.min_self, List.mem_reverse] at h
    rwa [take_newest_push rfl] at h
  cases hc : r.capacity with
  | zero =>
    rw [hc] at htake
    cases htake
  | succ n =>
    rw [hc, List.take_succ_cons] at htake
    refine (List.mem_cons.1 htake).imp_right fun hmem => ?_
    rw [toList, last, Nat.min_self, List.mem_reverse, hc]
    exact (List.take_prefix_take_left (Nat.le_succ n)).mem hmem

end Recent

def Session.lines (s : Session) : List TraceLine :=
  match s.trace with
  | some t => t.toList
  | none => []

theorem Session.mem_lines_record {s : Session} {id : NodeId} {event : TraceEvent} {line : TraceLine}
    (h : line ∈ (s.record id event).lines) : line = ⟨s.depth, id, event⟩ ∨ line ∈ s.lines := by
  obtain ⟨cuts, failures, trace, depth⟩ := s
  cases trace with
  | none => exact .inr h
  | some t => exact Recent.mem_toList_push h

namespace Graph

def LogsRun (g : Graph) (fuel₀ : Nat) (root : NodeId) (c₀ : Cursor) (s₀ s : Session) : Prop :=
  ∀ line ∈ s.lines, ∀ position, line.event = .tried position → ∃ under fuel c s,
    g.Tries fuel₀ root c₀ s₀ under (fuel + 1) line.node c s ∧ c.position = position ∧
      line.depth = s₀.depth + under.length

variable {g : Graph} {fuel₀ fuel : Nat} {root id : NodeId} {c₀ c : Cursor} {s₀ s s' : Session}
  {under : List Ongoing} {result : Option Cursor}

theorem LogsRun.enter (hs : g.LogsRun fuel₀ root c₀ s₀ s)
    (h : g.Tries fuel₀ root c₀ s₀ under (fuel + 1) id c s) :
    g.LogsRun fuel₀ root c₀ s₀ (s.enter id c.position) := by
  intro line hline
  rcases Session.mem_lines_record hline with rfl | hmem
  · rintro position ⟨⟩
    exact ⟨under, fuel, c, s, h, rfl, h.depth_eq⟩
  · exact hs line hmem

theorem LogsRun.leave (hs : g.LogsRun fuel₀ root c₀ s₀ s) (id : NodeId) (matched : Bool) :
    g.LogsRun fuel₀ root c₀ s₀ (s.leave id matched) := by
  intro line hline
  rcases Session.mem_lines_record hline with rfl | hmem
  · exact nofun
  · exact hs line hmem

theorem LogsRun.alike (hs : g.LogsRun fuel₀ root c₀ s₀ s) (h : s.Alike s') :
    g.LogsRun fuel₀ root c₀ s₀ s' := by
  rwa [LogsRun, Session.lines, h.trace]

theorem logsRun_attempt (h : g.Tries fuel₀ root c₀ s₀ under fuel id c s)
    (hs : g.LogsRun fuel₀ root c₀ s₀ s) (hans : g.attempt fuel id c s = some (result, s')) :
    g.LogsRun fuel₀ root c₀ s₀ s' := by
  induction fuel generalizing under id c s result s' with
  | zero => cases hans
  | succ fuel ih =>
    have henter := hs.enter h
    have child : ∀ {x d t result u}, g.Begins fuel id c s x d t → g.LogsRun fuel₀ root c₀ s₀ t →
        g.matchNode fuel x d t = some (result, u) → g.LogsRun fuel₀ root c₀ s₀ u :=
      fun hbegins ht => Attempt.repeated_induct ht fun _ _ _ _ hmade hv =>
        ih (.part h hbegins hmade) hv
    have children : ∀ {ids result u}, (∀ x d t, Attempt.MadeInTurn (g.matchNode fuel) ids c
          (s.enter id c.position) x d t → g.Begins fuel id c s x d t) →
        Attempt.inTurn (g.matchNode fuel) ids c (s.enter id c.position) = some (result, u) →
          g.LogsRun fuel₀ root c₀ s₀ u :=
      fun hbegins => Attempt.inTurn_induct henter fun _ _ _ _ _ hmade => child (hbegins _ _ _ hmade)
    rw [attempt] at hans
    split at hans
    · cases hans
    · next result t hocc =>
      obtain ⟨-, rfl⟩ := Prod.mk.inj (Option.some.inj hans)
      refine LogsRun.leave ?_ id _
      have hleaves := leaves_of_occurrence hocc
      generalize hk : (g.node id).kind = kind at hleaves
      cases hleaves with
      | alone halike => exact henter.alike halike
      | cut halike => exact LogsRun.alike (by rw [Session.cut]; split <;> exact henter) halike
      | reference hans => exact ih (.reference h hk) henter hans
      | group hin halike => exact (children (fun _ _ _ => .group hk) hin).alike halike
      | rule hin halike => exact (children (fun _ _ _ => .rule hk) hin).alike halike
      | @choice options weights escapes ended u hfirst halike =>
        have hopened : g.LogsRun fuel₀ root c₀ s₀
            { s.enter id c.position with cuts := false :: s.cuts } := henter
        have hu : g.LogsRun fuel₀ root c₀ s₀ u := Attempt.firstOf_induct hopened
          (fun _ _ _ _ hmade => child (.choice hk hmade)) hfirst
        have hclosed : g.LogsRun fuel₀ root c₀ s₀ { u with cuts := u.cuts.tail } := hu
        exact hclosed.alike halike
      | operand hop halike => exact (child (.operand hk) henter hop).alike halike

theorem logsRun_matchNode (hs : g.LogsRun fuel₀ root c₀ s₀ s₀)
    (hans : g.matchNode fuel₀ root c₀ s₀ = some (result, s')) : g.LogsRun fuel₀ root c₀ s₀ s' :=
  Attempt.repeated_induct hs (fun _ _ _ _ hmade ht hv => logsRun_attempt (.root hmade) ht hv) hans

end Graph

def Session.start (log : Option (Recent TraceLine)) : Session := ⟨[], [], log, 0⟩

def newLog (trace : Bool) : Option (Recent TraceLine) :=
  if trace then some (.empty Outcome.traceCapacity) else none

theorem Session.lines_start_newLog (trace : Bool) : (start (newLog trace)).lines = [] := by
  cases trace with
  | false => rfl
  | true => exact congrArg List.reverse List.take_nil

namespace Grammar

/-- Matching a text against a rule tries one occurrence of a node, with any fuel in all. -/
def Tries (g : Grammar) (rule text : String) (under : List Ongoing) (fuel : Nat) (id : NodeId)
    (c : Cursor) (s : Session) : Prop :=
  ∃ root log fuel₀, g.rules.lookup rule = some root ∧
    g.graph.Tries fuel₀ root (Cursor.ofString text) (.start log) under fuel id c s

theorem tries_of_mem_trace {g : Grammar} {rule text : String} {outcome : Outcome}
    (h : g.matchRule rule text = .ok (some outcome)) {line : TraceLine}
    (hline : line ∈ outcome.trace) {position : Position} (hevent : line.event = .tried position) :
    ∃ under fuel c s, g.Tries rule text under (fuel + 1) line.node c s ∧ c.position = position ∧
      line.depth = under.length := by
  obtain ⟨root, hroot, hmatch⟩ := matchRule_eq_ok.1 h
  rw [Graph.matchText] at hmatch
  split at hmatch
  · cases hmatch
  · next result s hans =>
    obtain rfl := Option.some.inj hmatch
    have hstart : g.graph.LogsRun (g.graph.enough (Cursor.ofString text).ahead) root
        (Cursor.ofString text) (.start (newLog g.settings.traceMatches))
        (.start (newLog g.settings.traceMatches)) := by
      rw [Graph.LogsRun, Session.lines_start_newLog]
      exact fun line hmem => absurd hmem List.not_mem_nil
    obtain ⟨under, fuel, c, t, htries, hposition, hdepth⟩ :=
      Graph.logsRun_matchNode hstart hans line hline position hevent
    refine ⟨under, fuel, c, t, ⟨root, _, _, hroot, htries⟩, hposition, ?_⟩
    rw [hdepth]
    exact Nat.zero_add _

end Grammar

end Ebnf
