import Ebnf.Proofs.Reading.Stateless

/-! What the matcher without a session answers is what is read, and whatever is read it answers
when it gets enough fuel. More fuel does not change an answer, so nothing else is read. -/

namespace Ebnf

namespace Reader

def Inside (text : List Char) (read : Reader) : Prop :=
  ∀ k ≤ text.length, ∀ m raised, read k = some (some m, raised) → k ≤ m ∧ m ≤ text.length

/-- Whatever the first reader answers at an offset of the text, the second one does too. -/
def Below (text : List Char) (read read' : Reader) : Prop :=
  ∀ k ≤ text.length, ∀ v, read k = some v → read' k = some v

theorem after_eq_some {o : Option (Option Nat × Bool)} {raised b : Bool} {e : Option Nat} :
    after raised o = some (e, b) ↔ ∃ later, o = some (e, later) ∧ b = (raised || later) := by
  rcases o with - | ⟨e', later⟩
  · simp [after]
  · constructor
    · rintro ⟨⟩
      exact ⟨later, rfl, rfl⟩
    · rintro ⟨_, ⟨⟩, rfl⟩
      rfl

theorem after_mono {o o' : Option (Option Nat × Bool)} {raised : Bool}
    (h : ∀ v, o = some v → o' = some v) {v : Option Nat × Bool} (hv : after raised o = some v) :
    after raised o' = some v := by
  cases o with
  | none => cases hv
  | some w => rwa [h w rfl]

variable {text : List Char} {read read' : NodeId → Reader}

theorem inTurn_mono (hin : ∀ id, Inside text (read id)) (h : ∀ id, Below text (read id) (read' id))
    (ids : List NodeId) : Below text (inTurn read ids) (inTurn read' ids) := by
  induction ids with
  | nil => exact fun _ _ _ hv => hv
  | cons id ids ih =>
    intro k hk v hv
    rw [inTurn] at hv ⊢
    rcases hr : read id k with - | ⟨- | m, raised⟩ <;> rw [hr] at hv
    · cases hv
    · rw [h id k hk _ hr]
      exact hv
    · rw [h id k hk _ hr]
      exact after_mono (ih m (hin id k hk m raised hr).2) hv

theorem firstOf_mono (h : ∀ id, Below text (read id) (read' id)) (ids : List NodeId) :
    Below text (firstOf read ids) (firstOf read' ids) := by
  induction ids with
  | nil => exact fun _ _ _ hv => hv
  | cons id ids ih =>
    intro k hk v hv
    rw [firstOf] at hv ⊢
    rcases hr : read id k with - | ⟨- | m, - | -⟩ <;> rw [hr] at hv
    · cases hv
    · rw [h id k hk _ hr]
      exact ih k hk v hv
    all_goals
      rw [h id k hk _ hr]
      exact hv

/-- The fuel of a row is no less than before, or else exceeds what is left of the text: every
occurrence but the last takes at least one character. -/
theorem repeated_mono {read read' : Reader} (hin : Inside text read) (h : Below text read read')
    (r : Repetition) {fuel fuel' k : Nat} (hk : k ≤ text.length)
    (hle : fuel ≤ fuel' ∨ text.length < fuel' + k) {count : Nat} {v : Option Nat × Bool}
    (hv : repeated read r fuel count k = some v) : repeated read' r fuel' count k = some v := by
  induction fuel generalizing fuel' count k v with
  | zero => cases hv
  | succ fuel ih =>
    obtain ⟨fuel', rfl⟩ : ∃ f, fuel' = f + 1 := ⟨fuel' - 1, by omega⟩
    rw [repeated] at hv ⊢
    split at hv
    · next hroom =>
      rw [if_pos hroom]
      rcases hr : read k with - | ⟨- | m, raised⟩ <;> rw [hr] at hv
      · cases hv
      · rw [h k hk _ hr]
        exact hv
      · rw [h k hk _ hr]
        obtain ⟨hkm, hm⟩ := hin k hk m raised hr
        -- an empty occurrence ends the row, and any other one leaves less text
        by_cases heq : m = k
        · simpa only [if_pos heq] using hv
        · simp only [if_neg heq] at hv ⊢
          exact after_mono (fun v => ih hm (by omega)) hv
    · next hroom => rwa [if_neg hroom]

theorem occurrence_mono {once once' : NodeId → Reader} (ho : ∀ id, Below text (once id) (once' id))
    (hin : ∀ id, Inside text (read id)) (h : ∀ id, Below text (read id) (read' id))
    (kind : NodeKind) :
    Below text (occurrence text once read kind) (occurrence text once' read' kind) := by
  intro k hk v hv
  cases kind with
  | terminal | charClass | cut => exact hv
  | reference rule target =>
    cases target with
    | none => exact hv
    | some target => exact ho target k hk v hv
  | group children | rule name children => exact inTurn_mono hin h children k hk v hv
  | choice options weights escapes =>
    simp only [occurrence] at hv ⊢
    cases hr : firstOf read options k with
    | none =>
      rw [hr] at hv
      cases hv
    | some w =>
      rw [firstOf_mono h options k hk w hr]
      rwa [hr] at hv
  | lookAhead positive operand =>
    cases operand with
    | none => exact hv
    | some operand =>
      simp only [occurrence, lookAhead] at hv ⊢
      cases hr : read operand k with
      | none =>
        rw [hr] at hv
        cases hv
      | some w =>
        rw [h operand k hk w hr]
        rwa [hr] at hv

end Reader

theorem Attempt.Follows.inside {text : List Char} {attempt : Attempt} {read : Reader}
    (h : attempt.Follows text read) : read.Inside text := by
  intro k hk m raised hr
  have := h k hk ⟨[], [], none, 0⟩
  rw [hr] at this
  exact this.1 m rfl

namespace Graph

variable {g : Graph} {text : List Char}

theorem readOnce_succ (fuel : Nat) (id : NodeId) : g.readOnce text (fuel + 1) id =
    Reader.occurrence text (g.readOnce text fuel) (g.readNode text fuel) (g.node id).kind := rfl

theorem inside_readOnce (fuel : Nat) (id : NodeId) : (g.readOnce text fuel id).Inside text :=
  (follows_attempt fuel id).inside

theorem inside_readNode (fuel : Nat) (id : NodeId) : (g.readNode text fuel id).Inside text :=
  (follows_matchNode fuel id).inside

/-- Fuel that is not less, or enough for the longest row, keeps the answers one level deeper. -/
theorem readOnce_step {fuel fuel' : Nat} (hle : fuel ≤ fuel' ∨ text.length < fuel')
    (h : ∀ id, (g.readOnce text fuel id).Below text (g.readOnce text fuel' id)) (id : NodeId) :
    (g.readOnce text (fuel + 1) id).Below text (g.readOnce text (fuel' + 1) id) := by
  rw [readOnce_succ, readOnce_succ]
  refine Reader.occurrence_mono h (inside_readNode fuel) (fun child k hk v hv => ?_) _
  exact Reader.repeated_mono (inside_readOnce fuel child) (h child) _ hk (by omega) hv

theorem readOnce_mono {fuel fuel' : Nat} (hle : fuel ≤ fuel') (id : NodeId) :
    (g.readOnce text fuel id).Below text (g.readOnce text fuel' id) := by
  induction fuel generalizing fuel' id with
  | zero => exact nofun
  | succ fuel ih =>
    obtain ⟨fuel', rfl⟩ : ∃ f, fuel' = f + 1 := ⟨fuel' - 1, by omega⟩
    exact readOnce_step (.inl (by omega)) (ih (by omega)) id

theorem readNode_mono {fuel fuel' : Nat} (hle : fuel ≤ fuel') (id : NodeId) :
    (g.readNode text fuel id).Below text (g.readNode text fuel' id) :=
  fun _ hk _ hv => Reader.repeated_mono (inside_readOnce fuel id) (readOnce_mono hle id) _ hk
    (.inl hle) hv

def readTask (g : Graph) (text : List Char) (fuel : Nat) : Task → Reader
  | .once id => g.readOnce text fuel id
  | .rest id count => Reader.repeated (g.readOnce text fuel id) (g.node id).repetition fuel count
  | .inTurn ids => Reader.inTurn (g.readNode text fuel) ids
  | .firstOf ids => Reader.firstOf (g.readNode text fuel) ids

theorem readTask_mono {fuel fuel' : Nat} (hle : fuel ≤ fuel') (task : Task) :
    (g.readTask text fuel task).Below text (g.readTask text fuel' task) := by
  cases task with
  | once id => exact readOnce_mono hle id
  | rest id count =>
    exact fun _ hk _ hv => Reader.repeated_mono (inside_readOnce fuel id) (readOnce_mono hle id) _
      hk (.inl hle) hv
  | inTurn ids => exact Reader.inTurn_mono (inside_readNode fuel) (readNode_mono hle) ids
  | firstOf ids => exact Reader.firstOf_mono (readNode_mono hle) ids

end Graph

section Sound

variable {g : Grammar} {text : List Char}

theorem reads_rest {id : Nat} {read : Reader}
    (h : ∀ k e raised, read k = some (e, raised) → Reads g text (.once id) k e raised)
    {fuel count k : Nat} {e : Option Nat} {raised : Bool}
    (hr : Reader.repeated read (g.graph.node id).repetition fuel count k = some (e, raised)) :
    Reads g text (.rest id count) k e raised := by
  induction fuel generalizing count k e raised with
  | zero => cases hr
  | succ fuel ih =>
    rw [Reader.repeated] at hr
    split at hr
    · next hroom =>
      rcases hread : read k with - | ⟨- | m, first⟩ <;> rw [hread] at hr
      · cases hr
      · obtain ⟨rfl, rfl⟩ := Prod.mk.inj (Option.some.inj hr)
        exact .last hroom (h k _ _ hread)
      · by_cases hm : m = k
        · subst hm
          simp only [if_true] at hr
          obtain ⟨rfl, rfl⟩ := Prod.mk.inj (Option.some.inj hr)
          exact .empty hroom (h m _ _ hread)
        · simp only [if_neg hm] at hr
          obtain ⟨later, hrest, rfl⟩ := Reader.after_eq_some.1 hr
          exact .more hroom (h k _ _ hread) hm (ih hrest)
    · next hroom =>
      obtain ⟨rfl, rfl⟩ := Prod.mk.inj (Option.some.inj hr)
      exact .full (by simpa using hroom)

variable {read : NodeId → Reader}

theorem reads_inTurn {ids : List NodeId}
    (h : ∀ id ∈ ids, ∀ k e raised, read id k = some (e, raised) →
      Reads g text (.whole id) k e raised) {k : Nat} {e : Option Nat} {raised : Bool}
    (hr : Reader.inTurn read ids k = some (e, raised)) :
    Reads g text (.inTurn ids) k e raised := by
  induction ids generalizing k e raised with
  | nil =>
    obtain ⟨rfl, rfl⟩ := Prod.mk.inj (Option.some.inj hr)
    exact .done
  | cons id ids ih =>
    have hid := h id List.mem_cons_self k
    rw [Reader.inTurn] at hr
    rcases hread : read id k with - | ⟨- | m, first⟩ <;> rw [hread] at hr
    · cases hr
    · obtain ⟨rfl, rfl⟩ := Prod.mk.inj (Option.some.inj hr)
      exact .blocked (hid _ _ hread)
    · obtain ⟨later, hrest, rfl⟩ := Reader.after_eq_some.1 hr
      exact .onward (hid _ _ hread) (ih (fun id hmem => h id (List.mem_cons_of_mem _ hmem)) hrest)

theorem reads_firstOf {ids : List NodeId}
    (h : ∀ id ∈ ids, ∀ k e raised, read id k = some (e, raised) →
      Reads g text (.whole id) k e raised) {k : Nat} {e : Option Nat} {raised : Bool}
    (hr : Reader.firstOf read ids k = some (e, raised)) :
    Reads g text (.firstOf ids) k e raised := by
  induction ids generalizing e raised with
  | nil =>
    obtain ⟨rfl, rfl⟩ := Prod.mk.inj (Option.some.inj hr)
    exact .exhausted
  | cons id ids ih =>
    have hid := h id List.mem_cons_self k
    rw [Reader.firstOf] at hr
    rcases hread : read id k with - | ⟨- | m, - | -⟩ <;> rw [hread] at hr
    · cases hr
    · exact .skipped (hid _ _ hread) (ih (fun id hmem => h id (List.mem_cons_of_mem _ hmem)) hr)
    · obtain ⟨rfl, rfl⟩ := Prod.mk.inj (Option.some.inj hr)
      exact .committed (hid _ _ hread)
    all_goals
      obtain ⟨rfl, rfl⟩ := Prod.mk.inj (Option.some.inj hr)
      exact .taken (hid _ _ hread)

theorem reads_once (hg : g.IsLinked) {fuel id k : Nat} (hid : id < g.graph.size)
    {e : Option Nat} {raised : Bool} (hr : g.graph.readOnce text fuel id k = some (e, raised)) :
    Reads g text (.once id) k e raised := by
  induction fuel generalizing id k e raised with
  | zero => cases hr
  | succ fuel ih =>
    rw [Graph.readOnce_succ] at hr
    have node : ∀ c ∈ (g.graph.node id).kind.children, ∀ k e raised,
        g.graph.readNode text fuel c k = some (e, raised) → Reads g text (.whole c) k e raised :=
      fun c hc k e raised h => reads_rest (fun _ _ _ => ih (hg.child hc).2) h
    cases hk : (g.graph.node id).kind with
    | terminal l =>
      rw [hk] at hr
      obtain ⟨rfl, rfl⟩ := Prod.mk.inj (Option.some.inj hr)
      split
      · next h => exact .literal hk h
      · next h => exact .noLiteral hk h
    | charClass set =>
      rw [hk] at hr
      obtain ⟨rfl, rfl⟩ := Prod.mk.inj (Option.some.inj hr)
      cases hc : text[k]? with
      | none => exact .noCharacter hk (by simp [hc])
      | some c =>
        rw [Option.any_some]
        split
        · next h => exact .character hk hc h
        · next h => exact .noCharacter hk (by simpa [hc] using h)
    | reference rule target =>
      obtain ⟨root, rfl, hroot⟩ := hg.reference hid hk
      rw [hk] at hr
      exact .reference hk hroot (ih (hg.root hroot).1 hr)
    | group children =>
      rw [hk] at hr node
      exact .group hk (reads_inTurn node hr)
    | rule name children =>
      rw [hk] at hr node
      exact .rule hk (reads_inTurn node hr)
    | choice options weights escapes =>
      rw [hk] at hr node
      simp only [Reader.occurrence] at hr
      rcases hread : Reader.firstOf (g.graph.readNode text fuel) options k with - | ⟨e', b⟩ <;>
        rw [hread] at hr
      · cases hr
      · obtain ⟨rfl, rfl⟩ := Prod.mk.inj (Option.some.inj hr)
        exact .choice hk (reads_firstOf node hread)
    | lookAhead positive operand =>
      obtain ⟨o, rfl⟩ := hg.operand hk
      rw [hk] at hr node
      simp only [Reader.occurrence, Reader.lookAhead] at hr
      rcases hread : g.graph.readNode text fuel o k with - | ⟨e', b⟩ <;> rw [hread] at hr
      · cases hr
      · obtain ⟨rfl, rfl⟩ := Prod.mk.inj (Option.some.inj hr)
        exact .lookAhead hk (node o (by simp [NodeKind.children]) _ _ _ hread)
    | cut =>
      rw [hk] at hr
      obtain ⟨rfl, rfl⟩ := Prod.mk.inj (Option.some.inj hr)
      exact .cut hk

theorem reads_whole (hg : g.IsLinked) {fuel id k : Nat} (hid : id < g.graph.size)
    {e : Option Nat} {raised : Bool} (hr : g.graph.readNode text fuel id k = some (e, raised)) :
    Reads g text (.whole id) k e raised :=
  reads_rest (fun _ _ _ => reads_once hg hid) hr

end Sound

section Complete

variable {g : Grammar} {text : List Char}

theorem exists_readOnce {id k : Nat} {v : Option Nat × Bool}
    (h : ∃ fuel, Reader.occurrence text (g.graph.readOnce text fuel) (g.graph.readNode text fuel)
      (g.graph.node id).kind k = some v) :
    ∃ fuel, g.graph.readTask text fuel (.once id) k = some v := by
  obtain ⟨fuel, h⟩ := h
  exact ⟨fuel + 1, h⟩

theorem exists_both {t t' : Task} {k k' : Nat} {v v' : Option Nat × Bool}
    (hk : k ≤ text.length) (hk' : k' ≤ text.length)
    (h : ∃ fuel, g.graph.readTask text fuel t k = some v)
    (h' : ∃ fuel, g.graph.readTask text fuel t' k' = some v') :
    ∃ fuel, g.graph.readTask text fuel t k = some v ∧
      g.graph.readTask text fuel t' k' = some v' := by
  obtain ⟨n, h⟩ := h
  obtain ⟨n', h'⟩ := h'
  exact ⟨max n n', Graph.readTask_mono (Nat.le_max_left ..) t k hk v h,
    Graph.readTask_mono (Nat.le_max_right ..) t' k' hk' v' h'⟩

theorem readTask_rest_succ {id fuel count k : Nat} :
    g.graph.readTask text (fuel + 1) (.rest id count) k =
      if (g.graph.node id).repetition.hasRoom count then
        match g.graph.readTask text (fuel + 1) (.once id) k with
        | none => none
        | some (none, raised) => some ((g.graph.node id).repetition.stop count k, raised)
        | some (some m, raised) =>
          if m = k then some (some k, raised)
          else Reader.after raised (Reader.repeated (g.graph.readOnce text (fuel + 1) id)
            (g.graph.node id).repetition fuel (count + 1) m)
      else some ((g.graph.node id).repetition.stop count k, false) := rfl

theorem exists_readTask (hg : g.IsLinked) {task : Task} {k : Nat} {e : Option Nat}
    {raised : Bool} (h : Reads g text task k e raised) (hk : k ≤ text.length)
    (hin : task.Inside g.graph.size) :
    ∃ fuel, g.graph.readTask text fuel task k = some (e, raised) := by
  induction h with
  | literal hn h => exact exists_readOnce ⟨0, by rw [hn, Reader.occurrence, if_pos h]⟩
  | noLiteral hn h => exact exists_readOnce ⟨0, by rw [hn, Reader.occurrence, if_neg h]⟩
  | character hn hc h => exact exists_readOnce ⟨0, by simp [hn, Reader.occurrence, hc, h]⟩
  | noCharacter hn h =>
    refine exists_readOnce ⟨0, ?_⟩
    rw [hn, Reader.occurrence, if_neg]
    simpa [Option.any_eq_true] using h
  | reference hn hroot _ ih =>
    obtain ⟨fuel, ih⟩ := ih hk (hg.root hroot).1
    obtain ⟨root', rfl, hroot'⟩ := hg.reference hin hn
    obtain rfl := Option.some.inj (hroot'.symm.trans hroot)
    exact exists_readOnce ⟨fuel, by rw [hn]; exact ih⟩
  | group hn _ ih | rule hn _ ih =>
    obtain ⟨fuel, ih⟩ := ih hk fun c hc => (hg.child (by rw [hn]; exact hc)).2
    exact exists_readOnce ⟨fuel, by rw [hn]; exact ih⟩
  | choice hn _ ih =>
    obtain ⟨fuel, ih⟩ := ih hk fun c hc => (hg.child (by rw [hn]; exact hc)).2
    refine exists_readOnce ⟨fuel, ?_⟩
    rw [hn, Reader.occurrence, show Reader.firstOf _ _ _ = _ from ih]
    rfl
  | lookAhead hn _ ih =>
    obtain ⟨fuel, ih⟩ := ih hk (hg.child (by rw [hn]; exact List.mem_singleton_self _)).2
    refine exists_readOnce ⟨fuel, ?_⟩
    rw [hn, Reader.occurrence, Reader.lookAhead, show g.graph.readNode text fuel _ _ = _ from ih]
  | cut hn => exact exists_readOnce ⟨0, by rw [hn]; rfl⟩
  | full hroom => exact ⟨1, by rw [readTask_rest_succ, if_neg (by simp [hroom])]⟩
  | last hroom _ ih =>
    obtain ⟨fuel, ih⟩ := ih hk hin
    refine ⟨fuel + 1, ?_⟩
    rw [readTask_rest_succ, if_pos hroom, Graph.readTask_mono (Nat.le_succ fuel) _ _ hk _ ih]
  | empty hroom _ ih =>
    obtain ⟨fuel, ih⟩ := ih hk hin
    refine ⟨fuel + 1, ?_⟩
    rw [readTask_rest_succ, if_pos hroom, Graph.readTask_mono (Nat.le_succ fuel) _ _ hk _ ih]
    exact if_pos rfl
  | more hroom h₁ hm _ ih₁ ih₂ =>
    have hlen := (h₁.bounds hk rfl).2
    obtain ⟨fuel, h₁, h₂⟩ := exists_both hk hlen (ih₁ hk hin) (ih₂ hlen hin)
    refine ⟨fuel + 1, ?_⟩
    rw [readTask_rest_succ, if_pos hroom, Graph.readTask_mono (Nat.le_succ fuel) _ _ hk _ h₁]
    simp only [if_neg hm]
    exact Reader.after_eq_some.2 ⟨_, Reader.repeated_mono (Graph.inside_readOnce fuel _)
      (Graph.readOnce_mono (Nat.le_succ fuel) _) _ hlen (.inl (Nat.le_refl _)) h₂, rfl⟩
  | done | exhausted => exact ⟨0, rfl⟩
  | blocked _ ih =>
    obtain ⟨fuel, ih⟩ := ih hk (hin _ List.mem_cons_self)
    refine ⟨fuel, ?_⟩
    rw [Graph.readTask, Reader.inTurn, show g.graph.readNode text fuel _ _ = _ from ih]
  | onward h₁ _ ih₁ ih₂ =>
    have hlen := (h₁.bounds hk rfl).2
    obtain ⟨fuel, h₁, h₂⟩ := exists_both hk hlen (ih₁ hk (hin _ List.mem_cons_self))
      (ih₂ hlen fun c hc => hin c (List.mem_cons_of_mem _ hc))
    refine ⟨fuel, ?_⟩
    rw [Graph.readTask, Reader.inTurn, show g.graph.readNode text fuel _ _ = _ from h₁]
    exact Reader.after_eq_some.2 ⟨_, h₂, rfl⟩
  | taken _ ih | committed _ ih =>
    obtain ⟨fuel, ih⟩ := ih hk (hin _ List.mem_cons_self)
    refine ⟨fuel, ?_⟩
    rw [Graph.readTask, Reader.firstOf, show g.graph.readNode text fuel _ _ = _ from ih]
  | skipped _ _ ih₁ ih₂ =>
    obtain ⟨fuel, h₁, h₂⟩ := exists_both hk hk (ih₁ hk (hin _ List.mem_cons_self))
      (ih₂ hk fun c hc => hin c (List.mem_cons_of_mem _ hc))
    refine ⟨fuel, ?_⟩
    rw [Graph.readTask, Reader.firstOf, show g.graph.readNode text fuel _ _ = _ from h₁]
    exact h₂

end Complete

theorem Reads.unique {g : Grammar} {text : List Char} (hg : g.IsLinked) {task : Task} {k : Nat}
    {e e' : Option Nat} {raised raised' : Bool} (h : Reads g text task k e raised)
    (h' : Reads g text task k e' raised') (hk : k ≤ text.length)
    (hin : task.Inside g.graph.size) :
    e = e' ∧ raised = raised' := by
  obtain ⟨fuel, h, h'⟩ := exists_both hk hk (exists_readTask hg h hk hin)
    (exists_readTask hg h' hk hin)
  exact Prod.mk.inj (Option.some.inj (h.symm.trans h'))

end Ebnf
