import Ebnf.Proofs.Chance.Draw
import Ebnf.Proofs.Prepared

/-! How deep generating nests. A metered generator counts up at every node that is written and down
behind it, and keeps the peak of its counter; but for that it is the generator. Each step from a
node to a part of it, or to a finite rule that it refers to, leaves fewer nodes to be walked to.
Only references to other rules start anew, and they are not followed past twice the limit. -/

namespace Ebnf

variable {σ : Type}

structure Meter where
  depth : Nat
  peak : Nat

namespace Meter

def start : Meter := ⟨0, 0⟩

def enter (m : Meter) : Meter := ⟨m.depth + 1, max m.peak (m.depth + 1)⟩

def leave (m : Meter) : Meter := { m with depth := m.depth - 1 }

structure Within (bound depth : Nat) (m : Meter) : Prop where
  depth : m.depth = depth
  peak : m.peak ≤ bound

end Meter

def Chance.metered (chance : Chance σ) : Chance (σ × Meter) where
  count lo hi pow s := ((chance.count lo hi pow s.1).1, (chance.count lo hi pow s.1).2, s.2)
  item d s := ((chance.item d s.1).1, (chance.item d s.1).2, s.2)
  char set s := (chance.char set s.1).map fun drawn => (drawn.1, drawn.2, s.2)

namespace Draft

def onMeter (f : Meter → Meter) (d : Draft (σ × Meter)) : Draft (σ × Meter) :=
  { d with chance := (d.chance.1, f d.chance.2) }

def unmetered (d : Draft (σ × Meter)) : Draft σ := { d with chance := d.chance.1 }

end Draft

def Writer.nested (write : Writer (σ × Meter)) : Writer (σ × Meter) := fun d =>
  (write (d.onMeter .enter)).map (Draft.onMeter .leave)

namespace Graph

def meteredOnce (g : Graph) (settings : EngineSettings) (chance : Chance σ) :
    (fuel : Nat) → NodeId → Writer (σ × Meter)
  | 0, _, _ => none
  | fuel + 1, id, d =>
    let once := g.meteredOnce settings chance fuel
    g.writeOccurrence settings chance.metered d.chance.2.depth once
      (fun c => (g.writeRepeated settings chance.metered once c).nested) (g.node id).kind d

/-- A text for a node, with the state of chance and the meter after it. -/
def generateMetered (g : Graph) (settings : EngineSettings) (chance : Chance σ) (fuel : Nat)
    (root : NodeId) (state : σ) : Option (Sample × σ × Meter) :=
  ((g.writeRepeated settings chance.metered (g.meteredOnce settings chance fuel) root).nested
    ⟨(state, .start), 0, []⟩).map fun d =>
      (⟨String.ofList d.written.reverse, d.overflows⟩, d.chance)

end Graph

def Writer.Tracks (bound depth : Nat) (metered : Writer (σ × Meter)) (plain : Writer σ) : Prop :=
  ∀ d : Draft (σ × Meter), d.chance.2.Within bound depth → ∃ d', metered d = some d' ∧
    plain d.unmetered = some d'.unmetered ∧ d'.chance.2.Within bound depth

namespace Writer.Tracks

variable {bound depth : Nat}

theorem times {metered : Writer (σ × Meter)} {plain : Writer σ}
    (h : Tracks bound depth metered plain) (count : Nat) :
    Tracks bound depth (Writer.times metered count) (Writer.times plain count) := by
  induction count with
  | zero => exact fun d hd => ⟨d, rfl, rfl, hd⟩
  | succ count ih =>
    intro d hd
    obtain ⟨d₁, hmetered, hplain, hd₁⟩ := h d hd
    obtain ⟨d₂, hmetered', hplain', hd₂⟩ := ih d₁ hd₁
    refine ⟨d₂, ?_, ?_, hd₂⟩
    · rw [Writer.times, hmetered]
      exact hmetered'
    · rw [Writer.times, hplain]
      exact hplain'

theorem inTurn {metered : NodeId → Writer (σ × Meter)} {plain : NodeId → Writer σ}
    {ids : List NodeId} (h : ∀ id ∈ ids, Tracks bound depth (metered id) (plain id)) :
    Tracks bound depth (Writer.inTurn metered ids) (Writer.inTurn plain ids) := by
  induction ids with
  | nil => exact fun d hd => ⟨d, rfl, rfl, hd⟩
  | cons id ids ih =>
    intro d hd
    obtain ⟨hid, hids⟩ := List.forall_mem_cons.1 h
    obtain ⟨d₁, hmetered, hplain, hd₁⟩ := hid d hd
    obtain ⟨d₂, hmetered', hplain', hd₂⟩ := ih hids d₁ hd₁
    refine ⟨d₂, ?_, ?_, hd₂⟩
    · rw [Writer.inTurn, hmetered]
      exact hmetered'
    · rw [Writer.inTurn, hplain]
      exact hplain'

theorem nested {metered : Writer (σ × Meter)} {plain : Writer σ}
    (h : Tracks bound (depth + 1) metered plain) (hdepth : depth + 1 ≤ bound) :
    Tracks bound depth metered.nested plain := by
  intro d hd
  have henter : (d.onMeter .enter).chance.2.Within bound (depth + 1) := by
    refine ⟨congrArg (· + 1) hd.depth, Nat.max_le.2 ⟨hd.peak, ?_⟩⟩
    rw [hd.depth]
    exact hdepth
  obtain ⟨d', hmetered, hplain, hd'⟩ := h _ henter
  refine ⟨d'.onMeter .leave, ?_, hplain, ?_, hd'.peak⟩
  · rw [Writer.nested, hmetered]
    rfl
  · exact congrArg (· - 1) hd'.depth

end Writer.Tracks

/-- Every draw of a character for a class of the grammar returns. -/
def Grammar.CharsReturn (g : Grammar) (chance : Chance σ) : Prop :=
  ∀ {id set}, (g.graph.node id).kind = .charClass set → ∀ state,
    ∃ drawn, chance.char set state = some drawn

namespace Graph

section

variable {g : Grammar} {settings : EngineSettings} {chance : Chance σ} {bound depth : Nat}

theorem tracks_repeated {metered : NodeId → Writer (σ × Meter)} {plain : NodeId → Writer σ}
    {id : NodeId} (h : Writer.Tracks bound depth (metered id) (plain id)) :
    Writer.Tracks bound depth (g.graph.writeRepeated settings chance.metered metered id)
      (g.graph.writeRepeated settings chance plain id) := by
  intro d hd
  have hcount : drawCount settings chance.metered (g.graph.node id).yield d.chance =
      ((drawCount settings chance (g.graph.node id).yield d.chance.1).1,
        (drawCount settings chance (g.graph.node id).yield d.chance.1).2, d.chance.2) := by
    unfold drawCount
    dsimp only
    split <;> rfl
  unfold writeRepeated
  rw [hcount]
  exact h.times _ _ hd

theorem tracks_occurrence {id : Nat} {metered nested : NodeId → Writer (σ × Meter)}
    {once repeated : NodeId → Writer σ} (hg : g.IsPrepared) (hid : id < g.graph.size)
    (hchars : g.CharsReturn chance)
    (honce : ∀ rule root, (∃ target, (g.graph.node id).kind = .reference rule target) →
      g.rules.lookup rule = some root → g.IsFiniteRule rule ∨ depth ≤ 2 * settings.depthLimit →
      Writer.Tracks bound depth (metered root) (once root))
    (hrepeated : ∀ c, g.graph.Writes id c → Writer.Tracks bound depth (nested c) (repeated c)) :
    Writer.Tracks bound depth (fun d => g.graph.writeOccurrence settings chance.metered
        d.chance.2.depth metered nested (g.graph.node id).kind d)
      (g.graph.writeOccurrence settings chance depth once repeated (g.graph.node id).kind) := by
  intro d hd
  dsimp only
  rw [hd.depth]
  unfold Writes at hrepeated
  cases hk : (g.graph.node id).kind with
  | terminal literal => exact ⟨_, rfl, rfl, hd⟩
  | charClass set =>
    obtain ⟨⟨c, state⟩, hdraw⟩ := hchars hk d.chance.1
    have hmetered : chance.metered.char set d.chance = some (c, state, d.chance.2) := by
      simp [Chance.metered, hdraw]
    refine ⟨{ d with chance := (state, d.chance.2) }.write c.toList, ?_, ?_, hd⟩
    · simp only [writeOccurrence, hmetered]
    · simp only [writeOccurrence, Draft.unmetered, hdraw]
      rfl
  | reference rule target =>
    obtain ⟨root, rfl, hroot⟩ := hg.linked.reference hid hk
    simp only [writeOccurrence]
    split
    · exact ⟨_, rfl, rfl, hd⟩
    · next hfollowed =>
      refine honce rule root ⟨_, hk⟩ hroot ?_ d hd
      rw [← hg.isFinite_iff hroot]
      cases hfinite : g.graph.isFinite root with
      | true => exact .inl rfl
      | false =>
        rw [hfinite] at hfollowed
        simp at hfollowed
        exact .inr hfollowed
  | group children | rule name children =>
    rw [hk] at hrepeated
    exact Writer.Tracks.inTurn hrepeated d hd
  | choice options weights escapes =>
    rw [hk] at hrepeated
    let drawn := chance.item (if settings.depthLimit < depth then escapes else weights) d.chance.1
    let next : Draft (σ × Meter) := { d with chance := (drawn.2, d.chance.2) }
    have hmetered : chance.metered.item
        (if settings.depthLimit < depth then escapes else weights) d.chance =
          (drawn.1, drawn.2, d.chance.2) := rfl
    have hunmetered : chance.item (if settings.depthLimit < depth then escapes else weights)
        d.unmetered.chance = drawn := rfl
    simp only [writeOccurrence, hmetered, hunmetered]
    cases hoption : drawn.1.bind (options[·]?) with
    | none => exact ⟨_, rfl, rfl, hd⟩
    | some option =>
      obtain ⟨i, -, hi⟩ := Option.bind_eq_some_iff.1 hoption
      exact hrepeated option (List.mem_of_getElem? hi) next hd
  | lookAhead positive operand => exact ⟨_, rfl, rfl, hd⟩
  | cut => exact ⟨_, rfl, rfl, hd⟩

/-- With fuel for two steps at each depth up to the bound, a node is written. A reference takes a
step of its own at the same depth, and leads to a rule. -/
theorem tracks_once (hg : g.IsPrepared) (hchars : g.CharsReturn chance)
    (hbound : 2 * settings.depthLimit + g.graph.size ≤ bound) (fuel : Nat) :
    ∀ fuel' depth id : Nat, id < g.graph.size → depth + g.rank g.Expands id ≤ bound + 1 →
      2 * (bound + 1) ≤ min fuel fuel' + 2 * depth →
      (∀ rule target, (g.graph.node id).kind = .reference rule target →
        2 * (bound + 1) < min fuel fuel' + 2 * depth) →
      Writer.Tracks bound depth (g.graph.meteredOnce settings chance fuel id)
        (g.graph.writeOnce settings chance fuel' depth id) := by
  have hwf := Grammar.wellFounded_expands hg.linked
  induction fuel with
  | zero =>
    intro fuel' depth id hid hrank hfuel
    have hpos : 0 < g.rank g.Expands id := Grammar.rank_pos hid
    omega
  | succ fuel ih =>
    intro fuel' depth id hid hrank hfuel href
    have hpos : 0 < g.rank g.Expands id := Grammar.rank_pos hid
    obtain ⟨fuel', rfl⟩ : ∃ n, fuel' = n + 1 := ⟨fuel' - 1, by omega⟩
    apply tracks_occurrence hg hid hchars
    · rintro rule root ⟨target, hk⟩ hroot hfollowed
      obtain ⟨hin, -, children, hrule⟩ := hg.linked.root hroot
      have hmore := href rule target hk
      have hnested : depth + g.rank g.Expands root ≤ bound + 1 := by
        rcases hfollowed with hfinite | hdepth
        · have hlt := Grammar.rank_lt hwf hid (.finite hk hroot hfinite)
          omega
        · have hle : g.rank g.Expands root ≤ g.graph.size := Grammar.rank_le root
          omega
      refine ih fuel' depth root hin hnested (by omega) fun rule' target' hk' => ?_
      cases hrule.symm.trans hk'
    · intro c hc
      have hlt := Grammar.rank_lt hwf hid (.part hc)
      have hin := (hg.linked.child (NodeKind.mem_children_of_written hc)).2
      have hposc : 0 < g.rank g.Expands c := Grammar.rank_pos hin
      have honce := ih fuel' (depth + 1) c hin (by omega) (by omega) fun _ _ _ => by omega
      exact (tracks_repeated honce).nested (by omega)

theorem exists_generateMetered (hg : g.IsPrepared) (hchars : g.CharsReturn chance) {root : Nat}
    (hroot : root < g.graph.size) {fuel fuel' : Nat} (hfuel : g.graph.enoughToWrite settings ≤ fuel)
    (hfuel' : g.graph.enoughToWrite settings ≤ fuel') (state : σ) :
    ∃ sample state' meter,
      g.graph.generateMetered settings chance fuel root state = some (sample, state', meter) ∧
      g.graph.generate settings chance fuel' root state = some (sample, state') ∧
      meter.depth = 0 ∧ meter.peak ≤ 2 * settings.depthLimit + g.graph.size := by
  let bound := 2 * settings.depthLimit + g.graph.size
  have henough : 2 * (bound + 1) ≤ g.graph.enoughToWrite settings := by
    rw [enoughToWrite, Nat.mul_comm]
    exact Nat.mul_le_mul (by omega) (by omega)
  have hrank : g.rank g.Expands root ≤ g.graph.size := Grammar.rank_le root
  have honce : Writer.Tracks bound 1 (g.graph.meteredOnce settings chance fuel root)
      (g.graph.writeOnce settings chance fuel' 1 root) :=
    tracks_once hg hchars (Nat.le_refl bound) fuel fuel' 1 root hroot (by omega) (by omega)
      fun _ _ _ => by omega
  obtain ⟨d, hmetered, hplain, hwithin⟩ := (tracks_repeated honce).nested (by omega)
    ⟨(state, .start), 0, []⟩ ⟨rfl, Nat.zero_le _⟩
  have hwrite : g.graph.writeNode settings chance fuel' 0 root ⟨state, 0, []⟩ =
      some d.unmetered := hplain
  refine ⟨⟨String.ofList d.written.reverse, d.overflows⟩, d.chance.1, d.chance.2, ?_, ?_,
    hwithin.depth, hwithin.peak⟩
  · rw [generateMetered, hmetered]
    rfl
  · rw [generate, hwrite]
    rfl

end

end Graph

namespace Engine

theorem generate_eq_ok {e : Engine} {chance : Chance σ} {rule : String} {root : NodeId}
    {state state' : σ} {sample : Sample} (hroot : e.grammar.root rule = .ok root)
    (h : e.grammar.graph.generate e.grammar.settings chance
      (e.grammar.graph.enoughToWrite e.grammar.settings) root state = some (sample, state')) :
    e.generate chance rule state =
      .ok (some (sample, state', if sample.isComplete then e else e.noteOverflow sample)) := by
  unfold Engine.generate Grammar.generate
  rw [hroot]
  simp only [Except.map, h, Option.map_some]

end Engine

end Ebnf
