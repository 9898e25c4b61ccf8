import Ebnf.Proofs.Reading.Fuel

/-! Matching and reading are the same. An attempt with some fuel and any session ends where its
node is read to end, and raises the innermost cut flag when the reading raises a cut. Matching a
text gets all the fuel it could use, so it returns on exactly the texts that are read at all. -/

namespace Ebnf

/-- What an attempt answers with some amount of fuel is what is read, in every session: the place
where it ends and the cut flags it leaves. -/
def Attempt.Decides (g : Grammar) (text : List Char) (attempt : (fuel : Nat) → Attempt)
    (task : Task) : Prop :=
  ∀ k ≤ text.length, ∀ s result cuts,
    (∃ fuel s', attempt fuel (.atOffset text k) s = some (result, s') ∧ s'.cuts = cuts) ↔
      ∃ e raised, Reads g text task k e raised ∧ result = e.map (Cursor.atOffset text) ∧
        cuts = raiseCut raised s.cuts

namespace Attempt

variable {g : Grammar} {text : List Char}

def Reaches (g : Grammar) (text : List Char) (attempt : Attempt) (task : Task) : Prop :=
  ∀ k ≤ text.length, ∀ s result s', attempt (.atOffset text k) s = some (result, s') →
    ∃ e raised, Reads g text task k e raised ∧ result = e.map (Cursor.atOffset text) ∧
      s'.cuts = raiseCut raised s.cuts

theorem Decides.reaches {attempt : Nat → Attempt} {task : Task}
    (h : Attempt.Decides g text attempt task) (fuel : Nat) :
    (attempt fuel).Reaches g text task := by
  intro k hk s result s' hanswer
  exact (h k hk s result s'.cuts).1 ⟨fuel, s', hanswer, rfl⟩

theorem Reaches.of_some {attempt : Attempt} {task : Task} (h : attempt.Reaches g text task)
    {k : Nat} (hk : k ≤ text.length) {s s' : Session} {d : Cursor}
    (hanswer : attempt (.atOffset text k) s = some (some d, s')) :
    ∃ m raised, Reads g text task k (some m) raised ∧ d = .atOffset text m ∧
      k ≤ m ∧ m ≤ text.length := by
  obtain ⟨- | m, raised, hread, hd, -⟩ := h k hk s _ s' hanswer
  · cases hd
  · obtain ⟨hle, hlen⟩ := hread.bounds hk rfl
    exact ⟨m, raised, hread, Option.some.inj hd, hle, hlen⟩

theorem Reaches.of_none {attempt : Attempt} {task : Task} (h : attempt.Reaches g text task)
    {k : Nat} (hk : k ≤ text.length) {s s' : Session}
    (hanswer : attempt (.atOffset text k) s = some (none, s')) :
    ∃ raised, Reads g text task k none raised ∧ s'.cuts = raiseCut raised s.cuts := by
  obtain ⟨- | m, raised, hread, hd, hcuts⟩ := h k hk s _ s' hanswer
  · exact ⟨raised, hread, hcuts⟩
  · cases hd

end Attempt

theorem Agrees.answer_iff {text : List Char} {k : Nat} {cuts cuts' : List Bool}
    {o : Option (Option Nat × Bool)} {answer : Option (Option Cursor × Session)}
    {result : Option Cursor} (h : Agrees text k cuts o answer) :
    (∃ s, answer = some (result, s) ∧ s.cuts = cuts') ↔
      ∃ e raised, o = some (e, raised) ∧ result = e.map (Cursor.atOffset text) ∧
        cuts' = raiseCut raised cuts := by
  rcases o with - | ⟨e, raised⟩
  · have hnone : answer = none := h
    simp [hnone]
  · obtain ⟨-, s, rfl, hcuts⟩ := h
    constructor
    · rintro ⟨s', hans, rfl⟩
      obtain ⟨rfl, rfl⟩ := Prod.mk.inj (Option.some.inj hans)
      exact ⟨e, raised, rfl, rfl, hcuts⟩
    · rintro ⟨e', raised', ho, rfl, rfl⟩
      obtain ⟨rfl, rfl⟩ := Prod.mk.inj (Option.some.inj ho)
      exact ⟨s, rfl, hcuts⟩

section

variable {g : Grammar} {text : List Char}

theorem Attempt.decides_of_follows {attempt : Nat → Attempt} {read : Nat → Reader} {task : Task}
    (hfollows : ∀ fuel, (attempt fuel).Follows text (read fuel))
    (hreads : ∀ k ≤ text.length, ∀ e raised,
      (∃ fuel, read fuel k = some (e, raised)) ↔ Reads g text task k e raised) :
    Attempt.Decides g text attempt task := by
  intro k hk s result cuts
  constructor
  · rintro ⟨fuel, hanswer⟩
    obtain ⟨e, raised, hread, hresult⟩ := (hfollows fuel k hk s).answer_iff.1 hanswer
    exact ⟨e, raised, (hreads k hk e raised).1 ⟨fuel, hread⟩, hresult⟩
  · rintro ⟨e, raised, hread, hresult⟩
    obtain ⟨fuel, hread⟩ := (hreads k hk e raised).2 hread
    exact ⟨fuel, (hfollows fuel k hk s).answer_iff.2 ⟨e, raised, hread, hresult⟩⟩

theorem exists_readOnce_iff (hg : g.IsLinked) {id k : Nat} (hid : id < g.graph.size)
    (hk : k ≤ text.length) (e : Option Nat) (raised : Bool) :
    (∃ fuel, g.graph.readOnce text fuel id k = some (e, raised)) ↔
      Reads g text (.once id) k e raised := by
  constructor
  · rintro ⟨fuel, hread⟩
    exact reads_once hg hid hread
  · intro hread
    exact exists_readTask hg hread hk hid

theorem exists_readNode_iff (hg : g.IsLinked) {id k : Nat} (hid : id < g.graph.size)
    (hk : k ≤ text.length) (e : Option Nat) (raised : Bool) :
    (∃ fuel, g.graph.readNode text fuel id k = some (e, raised)) ↔
      Reads g text (.whole id) k e raised := by
  constructor
  · rintro ⟨fuel, hread⟩
    exact reads_whole hg hid hread
  · intro hread
    exact exists_readTask hg hread hk hid

theorem decides_attempt (hg : g.IsLinked) {id : Nat} (hid : id < g.graph.size) :
    Attempt.Decides g text (fun fuel => g.graph.attempt fuel id) (.once id) :=
  Attempt.decides_of_follows (fun fuel => Graph.follows_attempt fuel id)
    (fun _ hk => exists_readOnce_iff hg hid hk)

theorem decides_matchNode (hg : g.IsLinked) {id : Nat} (hid : id < g.graph.size) :
    Attempt.Decides g text (fun fuel => g.graph.matchNode fuel id) (.whole id) :=
  Attempt.decides_of_follows (fun fuel => Graph.follows_matchNode fuel id)
    (fun _ hk => exists_readNode_iff hg hid hk)

theorem readNode_enough_iff (hg : g.IsLinked) {id k : Nat} (hid : id < g.graph.size)
    (hk : k ≤ text.length) (e : Option Nat) (raised : Bool) :
    g.graph.readNode text (g.graph.enough text) id k = some (e, raised) ↔
      Reads g text (.whole id) k e raised := by
  rw [← exists_readNode_iff hg hid hk]
  constructor
  · intro hread
    exact ⟨_, hread⟩
  · rintro ⟨fuel, hread⟩
    exact Graph.readNode_enough fuel id k hk _ hread

end

namespace Graph

theorem matchText_spec (g : Graph) (root : NodeId) (text : String) (trace : Bool) :
    match g.readNode text.toList (g.enough text.toList) root 0 with
    | none => g.matchText root text trace = none
    | some (e, _) => ∃ outcome, g.matchText root text trace = some outcome ∧
      (outcome.isMatch = true ↔ e = some text.toList.length) := by
  have hfollows : (g.matchNode (g.enough text.toList) root).Follows text.toList
      (g.readNode text.toList (g.enough text.toList) root) := follows_matchNode _ root
  have h := hfollows 0 (Nat.zero_le _)
    ⟨[], [], if trace then some (.empty Outcome.traceCapacity) else none, 0⟩
  have hstart : Cursor.atOffset text.toList 0 = Cursor.ofString text := rfl
  have hahead : (Cursor.ofString text).ahead = text.toList := rfl
  rw [matchText, hahead]
  rcases hread : g.readNode text.toList (g.enough text.toList) root 0 with - | ⟨- | m, raised⟩ <;>
    rw [hread, hstart] at h
  · have hnone := h
    simp only [Agrees] at hnone
    simp only [hnone]
  · obtain ⟨-, s, hans, -⟩ := h
    exact ⟨_, by rw [hans], by simp [Outcome.isMatch]⟩
  · obtain ⟨hm, s, hans, -⟩ := h
    have hlen := (hm m rfl).2
    refine ⟨_, by rw [hans], ?_⟩
    have hend : (Cursor.atOffset text.toList m).hasNext = false ↔ m = text.toList.length := by
      simp only [Cursor.hasNext, Cursor.ahead_atOffset, Bool.not_eq_false', List.isEmpty_iff,
        List.drop_eq_nil_iff]
      omega
    cases hnext : (Cursor.atOffset text.toList m).hasNext with
    | false => simpa [Outcome.isMatch, hnext] using hend.1 hnext
    | true =>
      have hne : m ≠ text.toList.length := fun heq => by simp [hend.2 heq] at hnext
      simpa [Outcome.isMatch, hnext] using hne

end Graph

namespace Grammar

variable {g : Grammar} {rule text : String}

theorem matchRule_eq_ok {answer : Option Outcome} : g.matchRule rule text = .ok answer ↔
    ∃ root, g.rules.lookup rule = some root ∧
      g.graph.matchText root text g.settings.traceMatches = answer := by
  cases hroot : g.rules.lookup rule <;> simp [matchRule, Grammar.root, hroot, Except.map]

/-- Matching a rule returns where the rule's node is read, and is a match where that reads the
whole text. -/
theorem matchRule_returns_iff (hg : g.IsLinked) (b : Bool) :
    (∃ outcome, g.matchRule rule text = .ok (some outcome) ∧ outcome.isMatch = b) ↔
      ∃ root e raised, g.rules.lookup rule = some root ∧
        Reads g text.toList (.whole root) 0 e raised ∧
          decide (e = some text.toList.length) = b := by
  constructor
  · rintro ⟨outcome, hmatch, rfl⟩
    obtain ⟨root, hroot, hmatch⟩ := matchRule_eq_ok.1 hmatch
    have hspec := g.graph.matchText_spec root text g.settings.traceMatches
    cases hread : g.graph.readNode text.toList (g.graph.enough text.toList) root 0 with
    | none => simp [hread, hmatch] at hspec
    | some v =>
      rw [hread, hmatch] at hspec
      obtain ⟨outcome', houtcome, hiff⟩ := hspec
      obtain rfl := Option.some.inj houtcome
      refine ⟨root, v.1, v.2, hroot, reads_whole hg (hg.root hroot).1 hread, ?_⟩
      rw [Bool.eq_iff_iff, decide_eq_true_iff, hiff]
  · rintro ⟨root, e, raised, hroot, hread, rfl⟩
    have hspec := g.graph.matchText_spec root text g.settings.traceMatches
    rw [(readNode_enough_iff hg (hg.root hroot).1 (Nat.zero_le _) e raised).2 hread] at hspec
    obtain ⟨outcome, houtcome, hiff⟩ := hspec
    refine ⟨outcome, matchRule_eq_ok.2 ⟨root, hroot, houtcome⟩, ?_⟩
    rw [Bool.eq_iff_iff, decide_eq_true_iff, hiff]

/-- On every parsed grammar the matcher is its own meaning: a rule matches the texts that it reads
from the first offset to the end, matching returns on the texts that are read at all, and at every
offset the attempts at a node end where the node is read to end. -/
theorem match_iff_reads {source : String} {settings : EngineSettings} {g : Grammar}
    (h : parse source settings = .ok g) :
    (∀ rule text outcome, g.matchRule rule text = .ok (some outcome) →
      (outcome.isMatch = true ↔ ∃ root raised, g.rules.lookup rule = some root ∧
        Reads g text.toList (.whole root) 0 (some text.toList.length) raised)) ∧
    (∀ rule text, (∃ outcome, g.matchRule rule text = .ok (some outcome)) ↔
      ∃ root e raised, g.rules.lookup rule = some root ∧
        Reads g text.toList (.whole root) 0 e raised) ∧
    ∀ text id, id < g.graph.size →
      Attempt.Decides g text (fun fuel => g.graph.attempt fuel id) (.once id) ∧
        Attempt.Decides g text (fun fuel => g.graph.matchNode fuel id) (.whole id) := by
  have hg := isLinked_parse h
  refine ⟨?_, ?_, fun text id hid => ⟨decides_attempt hg hid, decides_matchNode hg hid⟩⟩
  · intro rule text outcome hmatch
    constructor
    · intro hyes
      obtain ⟨root, e, raised, hroot, hread, he⟩ :=
        (matchRule_returns_iff hg true).1 ⟨outcome, hmatch, hyes⟩
      rw [of_decide_eq_true he] at hread
      exact ⟨root, raised, hroot, hread⟩
    · rintro ⟨root, raised, hroot, hread⟩
      obtain ⟨outcome', hmatch', hyes⟩ :=
        (matchRule_returns_iff hg true).2 ⟨root, _, raised, hroot, hread, decide_eq_true rfl⟩
      rw [hmatch] at hmatch'
      obtain rfl := Option.some.inj (Except.ok.inj hmatch')
      exact hyes
  · intro rule text
    constructor
    · rintro ⟨outcome, hmatch⟩
      obtain ⟨root, e, raised, hroot, hread, -⟩ :=
        (matchRule_returns_iff hg outcome.isMatch).1 ⟨outcome, hmatch, rfl⟩
      exact ⟨root, e, raised, hroot, hread⟩
    · rintro ⟨root, e, raised, hroot, hread⟩
      obtain ⟨outcome, hmatch, -⟩ :=
        (matchRule_returns_iff hg _).2 ⟨root, e, raised, hroot, hread, rfl⟩
      exact ⟨outcome, hmatch⟩

/-- The cut of `A` commits the alternative in `S` that refers to it, so its second option is never
tried behind an `a`. -/
theorem match_iff_reads_cut : ∃ g root,
    parse "S ::= (A \"c\") | (\"a\"\x7b2\x7d)  A ::= \"a\"+ ~" .standard = .ok g ∧
      g.rules.lookup "S" = some root ∧
        (∃ raised, Reads g ['a', 'a', 'c'] (.whole root) 0 (some 3) raised) ∧
          ¬∃ raised, Reads g ['a', 'a'] (.whole root) 0 (some 2) raised := by
  have hruns : (parse "S ::= (A \"c\") | (\"a\"\x7b2\x7d)  A ::= \"a\"+ ~" .standard).toOption.map
      (fun g => ["aac", "aa"].map fun text =>
        (g.matchRule "S" text).toOption.bind (Option.map Outcome.isMatch)) =
      some [some true, some false] := by decide +kernel
  obtain ⟨g, hparse, hruns⟩ := Option.map_eq_some_iff.1 hruns
  simp only [List.map_cons, List.map_nil, List.cons.injEq, Option.bind_eq_some_iff,
    Option.map_eq_some_iff, toOption_eq_some] at hparse hruns
  obtain ⟨⟨_, hyes, yes, rfl, hmatch⟩, ⟨_, hno, no, rfl, hfail⟩, -⟩ := hruns
  obtain ⟨root, raised, hroot, hread⟩ := ((match_iff_reads hparse).1 _ _ _ hyes).1 hmatch
  refine ⟨g, root, hparse, hroot, ⟨raised, hread⟩, ?_⟩
  rintro ⟨raised, hread⟩
  have := ((match_iff_reads hparse).1 _ _ _ hno).2 ⟨root, raised, hroot, hread⟩
  rw [hfail] at this
  cases this

end Grammar

end Ebnf
