import Ebnf.Proofs.Configured
import Ebnf.Proofs.ContextFree

/-! Generated text is derived. What a writer adds to a draft is a text of the node it writes, in the
context-free reading of the grammar as it was parsed, and every placeholder it adds is counted. The
depth only decides which option is taken and where a placeholder stands. -/

namespace Ebnf

variable {σ : Type}

structure Draft.Adds (d d' : Draft σ) (text : List Char) (holes : Nat) : Prop where
  written : d'.written = text.reverse ++ d.written
  overflows : d'.overflows = d.overflows + holes

namespace Draft.Adds

theorem none (d : Draft σ) : d.Adds d [] 0 := ⟨rfl, rfl⟩

theorem write (d : Draft σ) (state : σ) (text : List Char) :
    d.Adds ({ d with chance := state }.write text) text 0 := ⟨List.reverseAux_eq, rfl⟩

theorem overflow (d : Draft σ) (state : σ) :
    d.Adds { d with chance := state }.overflow placeholder.toList 1 := ⟨List.reverseAux_eq, rfl⟩

theorem trans {d₁ d₂ d₃ : Draft σ} {text text' : List Char} {holes holes' : Nat}
    (h : d₁.Adds d₂ text holes) (h' : d₂.Adds d₃ text' holes') :
    d₁.Adds d₃ (text ++ text') (holes + holes') := by
  constructor
  · rw [h'.written, h.written, List.reverse_append, List.append_assoc]
  · rw [h'.overflows, h.overflows, Nat.add_assoc]

end Draft.Adds

def Writer.Writes (g : Grammar) (write : Writer σ) (piece : Piece) : Prop :=
  ∀ d d', write d = some d' → ∃ text holes, Derives g piece text holes ∧ d.Adds d' text holes

namespace Writer.Writes

variable {g : Grammar}

theorem times {write : Writer σ} {id : Nat} (h : write.Writes g (.once id)) (count : Nat) :
    (Writer.times write count).Writes g (.times id count) := by
  induction count with
  | zero =>
    intro d d' hd
    cases hd
    exact ⟨[], 0, .noTimes, .none d⟩
  | succ count ih =>
    intro d d' hd
    rw [Writer.times] at hd
    split at hd
    · next d₁ hfirst =>
      obtain ⟨text, holes, htext, hadds⟩ := h d d₁ hfirst
      obtain ⟨rest, later, hrest, hadds'⟩ := ih d₁ d' hd
      exact ⟨_, _, .oneMore htext hrest, hadds.trans hadds'⟩
    · cases hd

theorem inTurn {write : NodeId → Writer σ} {ids : List NodeId}
    (h : ∀ id ∈ ids, (write id).Writes g (.whole id)) :
    (Writer.inTurn write ids).Writes g (.inTurn ids) := by
  induction ids with
  | nil =>
    intro d d' hd
    cases hd
    exact ⟨[], 0, .done, .none d⟩
  | cons id ids ih =>
    intro d d' hd
    obtain ⟨hid, hids⟩ := List.forall_mem_cons.1 h
    rw [Writer.inTurn] at hd
    split at hd
    · next d₁ hfirst =>
      obtain ⟨text, holes, htext, hadds⟩ := hid d d₁ hfirst
      obtain ⟨rest, later, hrest, hadds'⟩ := ih hids d₁ d' hd
      exact ⟨_, _, .onward htext hrest, hadds.trans hadds'⟩
    · cases hd

end Writer.Writes

/-- The maximum in use, if the engine's limit stands in for a missing one. -/
def Yield.upper (y : Yield) (limit : Nat) : Nat := Max.max (y.max.getD limit) y.min

/-- A number drawn for these bounds lies between them, if they differ at all. -/
def Yield.CountsWithin (y : Yield) (limit : Nat) (count : Nat → Nat → Float → σ → Nat × σ) :
    Prop :=
  ∀ state, y.min < y.upper limit → y.min ≤ (count y.min (y.upper limit) y.pow state).1 ∧
    (count y.min (y.upper limit) y.pow state).1 ≤ y.upper limit

theorem Graph.admits_drawCount {y : Yield} {declared : Repetition} {settings : EngineSettings}
    {chance : Chance σ} (hy : y.Narrows declared)
    (hcount : y.CountsWithin settings.repetitionLimit chance.count) (state : σ) :
    declared.admits (drawCount settings chance y state).1 = true := by
  have hbetween : y.min ≤ (drawCount settings chance y state).1 ∧
      (drawCount settings chance y state).1 ≤ y.upper settings.repetitionLimit := by
    have hle : y.min ≤ y.upper settings.repetitionLimit := Nat.le_max_right _ _
    simp only [drawCount]
    split
    · exact ⟨hle, Nat.le_refl _⟩
    · next hne => exact hcount state (Nat.lt_of_le_of_ne hle fun heq => hne heq.symm)
  have hmin : declared.min ≤ (drawCount settings chance y state).1 :=
    Nat.le_trans hy.min hbetween.1
  cases hmax : declared.max with
  | none => simp [Repetition.admits, hmin, hmax]
  | some bound =>
    obtain ⟨m, hm, hsome⟩ := hy.max hmax
    have hupper : y.upper settings.repetitionLimit = m := by
      unfold Yield.upper
      rw [hsome]
      exact Nat.max_eq_left (hy.proper hsome)
    have hle : (drawCount settings chance y state).1 ≤ bound :=
      Nat.le_trans (hupper ▸ hbetween.2) hm
    simp [Repetition.admits, hmin, hmax, hle]

def Grammar.CharsWithin (g : Grammar) (chance : Chance σ) : Prop :=
  ∀ {id set}, (g.graph.node id).kind = .charClass set → ∀ {state c state'},
    chance.char set state = some (c, state') → ∃ ch, c = some ch ∧ set.contains ch = true

namespace Graph

section Writers

variable {g fresh : Grammar} {chance : Chance σ}

theorem writes_occurrence {depth id : Nat} {once repeated : NodeId → Writer σ}
    (hset : g.IsSetFrom fresh) (hfresh : fresh.IsLinked) (hchars : fresh.CharsWithin chance)
    (hid : id < fresh.graph.size)
    (honce : ∀ id < fresh.graph.size, (once id).Writes fresh (.once id))
    (hrepeated : ∀ id < fresh.graph.size, (repeated id).Writes fresh (.whole id)) :
    Writer.Writes fresh (g.graph.writeOccurrence g.settings chance depth once repeated
      (g.graph.node id).kind) (.once id) := by
  intro d d' hd
  have hbare : (fresh.graph.node id).kind.bare = (g.graph.node id).kind.bare :=
    (hset.graph id).alike.kind.symm
  -- Only the distributions of a choice may have changed since the source was read.
  have hkept : (g.graph.node id).kind.isChoice = false →
      (fresh.graph.node id).kind = (g.graph.node id).kind := NodeKind.eq_of_bare_eq hbare
  have hchild : ∀ c ∈ (fresh.graph.node id).kind.children, c < fresh.graph.size :=
    fun c hc => (hfresh.child hc).2
  cases hk : (g.graph.node id).kind with
  | terminal literal =>
    rw [hk] at hd hkept
    cases hd
    exact ⟨_, 0, .terminal (hkept rfl), .write d d.chance literal.toList⟩
  | charClass set =>
    rw [hk] at hd hkept
    simp only [writeOccurrence] at hd
    split at hd
    · cases hd
    · next c state hdraw =>
      cases hd
      obtain ⟨ch, rfl, hin⟩ := hchars (hkept rfl) hdraw
      exact ⟨[ch], 0, .character (hkept rfl) hin, .write d state [ch]⟩
  | reference rule target =>
    rw [hk] at hd hkept
    obtain ⟨root, rfl, hroot⟩ := hfresh.reference hid (hkept rfl)
    simp only [writeOccurrence] at hd
    split at hd
    · cases hd
      exact ⟨_, 1, .openReference (hkept rfl), .overflow d d.chance⟩
    · obtain ⟨text, holes, htext, hadds⟩ := honce root (hfresh.root hroot).1 d d' hd
      exact ⟨text, holes, .reference (hkept rfl) hroot htext, hadds⟩
  | group children =>
    rw [hk] at hd hkept
    rw [hkept rfl] at hchild
    have hwrites := Writer.Writes.inTurn fun c hc => hrepeated c (hchild c hc)
    obtain ⟨text, holes, htext, hadds⟩ := hwrites d d' hd
    exact ⟨text, holes, .group (hkept rfl) htext, hadds⟩
  | rule name children =>
    rw [hk] at hd hkept
    rw [hkept rfl] at hchild
    have hwrites := Writer.Writes.inTurn fun c hc => hrepeated c (hchild c hc)
    obtain ⟨text, holes, htext, hadds⟩ := hwrites d d' hd
    exact ⟨text, holes, .rule (hkept rfl) htext, hadds⟩
  | choice options weights escapes =>
    rw [hk] at hd hbare
    obtain ⟨weights', escapes', hk'⟩ := NodeKind.exists_of_bare_choice hbare
    rw [hk'] at hchild
    simp only [writeOccurrence] at hd
    split at hd
    · next option hoption =>
      obtain ⟨i, -, hi⟩ := Option.bind_eq_some_iff.1 hoption
      have hmem : option ∈ options := List.mem_of_getElem? hi
      obtain ⟨text, holes, htext, hadds⟩ := hrepeated option (hchild option hmem) _ d' hd
      exact ⟨text, holes, .option hk' hmem htext, hadds.written, hadds.overflows⟩
    · cases hd
      exact ⟨_, 1, .openChoice hk', .overflow d _⟩
  | lookAhead positive operand =>
    rw [hk] at hd hkept
    cases hd
    exact ⟨[], 0, .lookAhead (hkept rfl), .none d⟩
  | cut =>
    rw [hk] at hd hkept
    cases hd
    exact ⟨[], 0, .cut (hkept rfl), .none d⟩

variable (hset : g.IsSetFrom fresh)
  (hcount : ∀ id, (g.graph.node id).yield.CountsWithin g.settings.repetitionLimit chance.count)

include hset hcount in
theorem writes_repeated {id : Nat} {once : NodeId → Writer σ}
    (honce : (once id).Writes fresh (.once id)) :
    (g.graph.writeRepeated g.settings chance once id).Writes fresh (.whole id) := by
  intro d d' hd
  have hadmits := admits_drawCount (hset.graph id).yield (hcount id) d.chance
  obtain ⟨text, holes, htext, hadds⟩ := honce.times _ _ d' hd
  exact ⟨text, holes, .whole hadmits htext, hadds.written, hadds.overflows⟩

include hset hcount in
theorem writes_once (hfresh : fresh.IsLinked) (hchars : fresh.CharsWithin chance) (fuel : Nat) :
    ∀ depth, ∀ id < fresh.graph.size,
      (g.graph.writeOnce g.settings chance fuel depth id).Writes fresh (.once id) := by
  induction fuel with
  | zero => exact fun _ _ _ _ _ hd => nomatch hd
  | succ fuel ih =>
    intro depth id hid
    -- a reference is followed at the same depth, children are written one deeper
    refine writes_occurrence hset hfresh hchars hid (ih depth) fun c hc => ?_
    exact writes_repeated hset hcount (ih (depth + 1) c hc)

end Writers

end Graph

namespace Grammar

theorem root_eq_ok {g : Grammar} {rule : String} {id : NodeId} (h : g.root rule = .ok id) :
    g.rules.lookup rule = some id := by
  unfold Grammar.root at h
  split at h
  · next hlookup =>
    cases h
    exact hlookup
  · cases h

theorem derivable_generate {g fresh : Grammar} {chance : Chance σ} (hset : g.IsSetFrom fresh)
    (hfresh : fresh.IsLinked) (hchars : fresh.CharsWithin chance)
    (hcount : ∀ id, (g.graph.node id).yield.CountsWithin g.settings.repetitionLimit chance.count)
    {rule : String} {state state' : σ} {sample : Sample}
    (h : g.generate chance rule state = .ok (some (sample, state'))) :
    fresh.Derivable rule sample.text sample.overflows := by
  obtain ⟨root, hroot, hgenerate⟩ := map_eq_ok.1 h
  have hlookup : fresh.rules.lookup rule = some root := hset.rules ▸ root_eq_ok hroot
  obtain ⟨d, hwrite, heq⟩ := Option.map_eq_some_iff.1 hgenerate
  cases heq
  have honce := Graph.writes_once hset hcount hfresh hchars
    (g.graph.enoughToWrite g.settings) 1 root (hfresh.root hlookup).1
  obtain ⟨text, holes, htext, hwritten, hoverflows⟩ :=
    Graph.writes_repeated hset hcount honce _ d hwrite
  rw [List.append_nil] at hwritten
  rw [Nat.zero_add] at hoverflows
  refine ⟨root, hlookup, ?_⟩
  simpa [hwritten, hoverflows] using htext

end Grammar

namespace Engine

theorem grammar_generate {e e' : Engine} {chance : Chance σ} {rule : String}
    {state state' : σ} {sample : Sample}
    (h : e.generate chance rule state = .ok (some (sample, state', e'))) :
    e.grammar.generate chance rule state = .ok (some (sample, state')) ∧
      e'.grammar = e.grammar := by
  obtain ⟨result, hresult, hmap⟩ := map_eq_ok.1 h
  obtain ⟨⟨_, _⟩, rfl, heq⟩ := Option.map_eq_some_iff.1 hmap
  cases heq
  refine ⟨hresult, ?_⟩
  split <;> rfl

/-- Generated text is derived from its rule in the context-free reading of the grammar, whatever
was set before and whatever was refused. A sample without placeholders is a text of the rule, and
in any other one every placeholder stands for one occurrence of a reference or of an alternative.
Nothing is known of powers, so the numbers of occurrences come from any draw that keeps between its
bounds. -/
theorem generate_derives {source : String} {settings : EngineSettings} {e : Engine}
    (h : parse source settings = .ok e) (calls : List Call) (words : Words)
    (count : Nat → Nat → Float → Nat → Nat × Nat)
    (hcount : ∀ id, ((e.callAll calls).grammar.graph.node id).yield.CountsWithin
      (e.callAll calls).grammar.settings.repetitionLimit count)
    {rule : String} {used used' : Nat} {sample : Sample} {e' : Engine}
    (hgen : (e.callAll calls).generate { Chance.ofWords words with count } rule used =
      .ok (some (sample, used', e'))) :
    e.grammar.Derivable rule sample.text sample.overflows := by
  have hset := isSetFrom_callAll h calls
  obtain ⟨fresh, hfresh, heq⟩ := bind_eq_ok.1 h
  have hgrammar : e.grammar = fresh := by
    cases heq
    rfl
  rw [hgrammar] at hset ⊢
  have hchars : fresh.CharsWithin { Chance.ofWords words with count } := fun hk _ _ _ hdraw =>
    CharClass.contains_of_draw ((Grammar.isFresh_parse hfresh _).charClass hk) hdraw
  obtain ⟨result, hresult, hmap⟩ := map_eq_ok.1 hgen
  obtain ⟨⟨sample', state⟩, rfl, hsample⟩ := Option.map_eq_some_iff.1 hmap
  cases hsample
  exact Grammar.derivable_generate hset (Grammar.isLinked_parse hfresh) hchars hcount hresult

/-- All words are zero, so every number drawn is the least one. The second call is refused, since
the grammar has no more than three occurrences. -/
theorem generate_derives_placeholders : ∃ e,
    parse "S ::= \"a\"\x7b1,3\x7d.run ((\"(\" S \")\") | [b-d])  T ::= S T" .standard = .ok e ∧
      e.grammar.Derivable "S" "aab" 0 ∧
        e.grammar.Derivable "T" "aab<depth-limit><depth-limit>" 2 := by
  let calls : List Call :=
    [.configure "S" (Table.ofList [("run", ⟨some 2, none, none, none⟩)]),
      .configure "S" (Table.ofList [("run", ⟨none, some 5, none, none⟩)]),
      .setSettings ⟨128, 1, false⟩]
  let lowest : Nat → Nat → Float → Nat → Nat × Nat := fun lo _ _ used => (lo, used + 1)
  have hruns : (parse "S ::= \"a\"\x7b1,3\x7d.run ((\"(\" S \")\") | [b-d])  T ::= S T"
      .standard).toOption.map (fun e => ["S", "T"].map fun rule =>
        (((e.callAll calls).generate { Chance.ofWords (fun _ => 0) with count := lowest } rule
          0).toOption.bind id).map Prod.fst) =
      some [some ⟨"aab", 0⟩, some ⟨"aab<depth-limit><depth-limit>", 2⟩] := by decide +kernel
  obtain ⟨e, hparse, hruns⟩ := Option.map_eq_some_iff.1 hruns
  simp only [List.map_cons, List.map_nil, List.cons.injEq, Option.bind_eq_some_iff,
    Option.map_eq_some_iff, toOption_eq_some] at hparse hruns
  obtain ⟨⟨⟨_, used, e₁⟩, ⟨_, hfirst, rfl⟩, rfl⟩, ⟨⟨_, used', e₂⟩, ⟨_, hsecond, rfl⟩, rfl⟩, -⟩ :=
    hruns
  have hcount : ∀ id, ((e.callAll calls).grammar.graph.node id).yield.CountsWithin
      (e.callAll calls).grammar.settings.repetitionLimit lowest :=
    fun _ _ hlt => ⟨Nat.le_refl _, Nat.le_of_lt hlt⟩
  exact ⟨e, hparse, generate_derives hparse calls _ lowest hcount hfirst,
    generate_derives hparse calls _ lowest hcount hsecond⟩

end Engine

end Ebnf
