import Ebnf.Proofs.Reading.Exact
import Ebnf.Proofs.Syntax.Checked

/-! Why something is not read. A failure has one culprit: what failed last and was not forgiven. It
stands in a node, which stands in another one, and so on up to what was to be read. What a matcher
has entered when it fails are these nodes in their order and nothing else, whatever failed before
and was forgiven by a quantifier, a later option or a look-ahead. -/

namespace Ebnf

def Failed.ofNode (text : List Char) (id k : Nat) (reason : Reason) : Failed :=
  ⟨some id, (Cursor.atOffset text k).position, reason⟩

/-- `Fails g text task k chain`: from offset `k` on `task` is not read, and `chain` leads from the
culprit to all that it stands in. -/
inductive Fails (g : Grammar) (text : List Char) : Task → Nat → List Failed → Prop
  | literal {id k : Nat} {l : String} : (g.graph.node id).kind = .terminal l →
      ¬l.toList <+: text.drop k →
      Fails g text (.once id) k
        [.ofNode text id k (.ofFound ((text.drop k).take l.toList.length))]
  | endOfText {id k : Nat} {set : CharClass} : (g.graph.node id).kind = .charClass set →
      text[k]? = none → Fails g text (.once id) k [.ofNode text id k .endOfInput]
  | character {id k : Nat} {set : CharClass} {c : Char} :
      (g.graph.node id).kind = .charClass set → text[k]? = some c → set.contains c = false →
      Fails g text (.once id) k [.ofNode text id k (.found [c])]
  | reference {id k root : Nat} {rule : String} {target : Option NodeId} {chain : List Failed} :
      (g.graph.node id).kind = .reference rule target → g.rules.lookup rule = some root →
      Fails g text (.once root) k chain → Fails g text (.once id) k chain
  | group {id k : Nat} {children : List NodeId} {chain : List Failed} :
      (g.graph.node id).kind = .group children → Fails g text (.inTurn children) k chain →
      Fails g text (.once id) k (chain ++ [.ofNode text id k .inherited])
  | rule {id k : Nat} {name : String} {children : List NodeId} {chain : List Failed} :
      (g.graph.node id).kind = .rule name children → Fails g text (.inTurn children) k chain →
      Fails g text (.once id) k (chain ++ [.ofNode text id k .inherited])
  | choice {id k : Nat} {options : List NodeId} {weights escapes : Distribution} {raised : Bool}
      {chain : List Failed} : (g.graph.node id).kind = .choice options weights escapes →
      Reads g text (.firstOf options) k none raised → Fails g text (.firstOf options) k chain →
      Fails g text (.once id) k
        (chain ++ [.ofNode text id k (if raised then .committed else .inherited)])
  | present {id k operand : Nat} {chain : List Failed} :
      (g.graph.node id).kind = .lookAhead true (some operand) →
      Fails g text (.whole operand) k chain →
      Fails g text (.once id) k (chain ++ [.ofNode text id k .inherited])
  | absent {id k m operand : Nat} {raised : Bool} :
      (g.graph.node id).kind = .lookAhead false (some operand) →
      Reads g text (.whole operand) k (some m) raised →
      Fails g text (.once id) k
        [.ofNode text id k (.operandMatched ((text.drop k).take (m - k)))]
  | last {id count k : Nat} {chain : List Failed} :
      (g.graph.node id).repetition.hasRoom count = true →
      ¬(g.graph.node id).repetition.min ≤ count → Fails g text (.once id) k chain →
      Fails g text (.rest id count) k chain
  | more {id count k m : Nat} {raised : Bool} {chain : List Failed} :
      (g.graph.node id).repetition.hasRoom count = true →
      Reads g text (.once id) k (some m) raised → m ≠ k →
      Fails g text (.rest id (count + 1)) m chain → Fails g text (.rest id count) k chain
  | blocked {id k : Nat} {ids : List NodeId} {chain : List Failed} :
      Fails g text (.whole id) k chain → Fails g text (.inTurn (id :: ids)) k chain
  | onward {id k m : Nat} {ids : List NodeId} {raised : Bool} {chain : List Failed} :
      Reads g text (.whole id) k (some m) raised → Fails g text (.inTurn ids) m chain →
      Fails g text (.inTurn (id :: ids)) k chain
  | committed {id k : Nat} {ids : List NodeId} {chain : List Failed} :
      Reads g text (.whole id) k none true → Fails g text (.whole id) k chain →
      Fails g text (.firstOf (id :: ids)) k chain
  | only {id k : Nat} {chain : List Failed} : Reads g text (.whole id) k none false →
      Fails g text (.whole id) k chain → Fails g text (.firstOf [id]) k chain
  | skipped {id k : Nat} {ids : List NodeId} {chain : List Failed} :
      Reads g text (.whole id) k none false → Fails g text (.firstOf ids) k chain →
      Fails g text (.firstOf (id :: ids)) k chain

namespace Fails

variable {g : Grammar} {text : List Char} {task : Task} {k : Nat} {chain chain' : List Failed}

theorem reads (h : Fails g text task k chain) : ∃ raised, Reads g text task k none raised := by
  induction h with
  | literal hn hprefix => exact ⟨_, .noLiteral hn hprefix⟩
  | endOfText hn hend => exact ⟨_, .noCharacter hn fun c hc => by simp [hend] at hc⟩
  | character hn hc hnot =>
    refine ⟨_, .noCharacter hn fun c' hc' => ?_⟩
    rw [← Option.some.inj (hc.symm.trans hc')]
    exact hnot
  | reference hn hroot _ ih =>
    obtain ⟨raised, hread⟩ := ih
    exact ⟨raised, .reference hn hroot hread⟩
  | group hn _ ih =>
    obtain ⟨raised, hread⟩ := ih
    exact ⟨raised, .group hn hread⟩
  | rule hn _ ih =>
    obtain ⟨raised, hread⟩ := ih
    exact ⟨raised, .rule hn hread⟩
  | choice hn hread => exact ⟨_, .choice hn hread⟩
  | present hn _ ih =>
    obtain ⟨raised, hread⟩ := ih
    exact ⟨raised, .lookAhead hn hread⟩
  | absent hn hread => exact ⟨_, .lookAhead hn hread⟩
  | last hroom hfew _ ih =>
    obtain ⟨raised, hread⟩ := ih
    have hlast := Reads.last hroom hread
    rw [Repetition.stop, if_neg hfew] at hlast
    exact ⟨raised, hlast⟩
  | more hroom hread hne _ ih =>
    obtain ⟨later, hrest⟩ := ih
    exact ⟨_, .more hroom hread hne hrest⟩
  | blocked _ ih =>
    obtain ⟨raised, hread⟩ := ih
    exact ⟨raised, .blocked hread⟩
  | onward hread _ ih =>
    obtain ⟨later, hrest⟩ := ih
    exact ⟨_, .onward hread hrest⟩
  | committed hread => exact ⟨_, .committed hread⟩
  | only hread => exact ⟨_, .skipped hread .exhausted⟩
  | skipped hread _ ih =>
    obtain ⟨raised, hrest⟩ := ih
    exact ⟨raised, .skipped hread hrest⟩

theorem once_inv {id : Nat} (h : Fails g text (.once id) k chain) :
    match (g.graph.node id).kind with
    | .terminal l => chain = [.ofNode text id k (.ofFound ((text.drop k).take l.toList.length))]
    | .charClass _ => (text[k]? = none ∧ chain = [.ofNode text id k .endOfInput]) ∨
        ∃ c, text[k]? = some c ∧ chain = [.ofNode text id k (.found [c])]
    | .reference name _ => ∃ root, g.rules.lookup name = some root ∧
        Fails g text (.once root) k chain
    | .group children | .rule _ children => ∃ inner, Fails g text (.inTurn children) k inner ∧
        chain = inner ++ [.ofNode text id k .inherited]
    | .choice options _ _ => ∃ inner raised, Fails g text (.firstOf options) k inner ∧
        Reads g text (.firstOf options) k none raised ∧
          chain = inner ++ [.ofNode text id k (if raised then .committed else .inherited)]
    | .lookAhead true (some operand) => ∃ inner, Fails g text (.whole operand) k inner ∧
        chain = inner ++ [.ofNode text id k .inherited]
    | .lookAhead false (some operand) => ∃ m raised,
        Reads g text (.whole operand) k (some m) raised ∧
          chain = [.ofNode text id k (.operandMatched ((text.drop k).take (m - k)))]
    | _ => False := by
  cases h with
  | literal hn =>
    rw [hn]
  | endOfText hn hend =>
    rw [hn]
    exact .inl ⟨hend, rfl⟩
  | character hn hc =>
    rw [hn]
    exact .inr ⟨_, hc, rfl⟩
  | reference hn hroot hchain =>
    rw [hn]
    exact ⟨_, hroot, hchain⟩
  | group hn hchain | rule hn hchain | present hn hchain =>
    rw [hn]
    exact ⟨_, hchain, rfl⟩
  | choice hn hread hchain =>
    rw [hn]
    exact ⟨_, _, hchain, hread, rfl⟩
  | absent hn hread =>
    rw [hn]
    exact ⟨_, _, hread, rfl⟩

theorem unique (hg : g.IsLinked) (h : Fails g text task k chain)
    (h' : Fails g text task k chain') (hk : k ≤ text.length) (hin : task.Inside g.graph.size) :
    chain = chain' := by
  induction h generalizing chain' with
  | literal hn =>
    have hinv := h'.once_inv
    rw [hn] at hinv
    exact hinv.symm
  | endOfText hn hend =>
    have hinv := h'.once_inv
    rw [hn] at hinv
    rcases hinv with ⟨-, heq⟩ | ⟨c, hc, -⟩
    · exact heq.symm
    · cases hend.symm.trans hc
  | character hn hc =>
    have hinv := h'.once_inv
    rw [hn] at hinv
    rcases hinv with ⟨hend, -⟩ | ⟨c', hc', heq⟩
    · cases hend.symm.trans hc
    · rw [heq, Option.some.inj (hc.symm.trans hc')]
  | reference hn hroot _ ih =>
    have hinv := h'.once_inv
    rw [hn] at hinv
    obtain ⟨root', hroot', hchain'⟩ := hinv
    obtain rfl := Option.some.inj (hroot.symm.trans hroot')
    exact ih hchain' hk (hg.root hroot).1
  | group hn _ ih | rule hn _ ih =>
    have hinv := h'.once_inv
    rw [hn] at hinv
    obtain ⟨inner, hinner, rfl⟩ := hinv
    rw [ih hinner hk fun c hc => (hg.child (by rw [hn]; exact hc)).2]
  | present hn _ ih =>
    have hinv := h'.once_inv
    rw [hn] at hinv
    obtain ⟨inner, hinner, rfl⟩ := hinv
    rw [ih hinner hk (hg.child (by rw [hn]; exact List.mem_singleton_self _)).2]
  | @choice id k options weights escapes raised chain hn hread _ ih =>
    have hinv := h'.once_inv
    rw [hn] at hinv
    obtain ⟨inner, raised', hinner, hread', rfl⟩ := hinv
    have hoptions : ∀ c ∈ options, c < g.graph.size :=
      fun c hc => (hg.child (show c ∈ (g.graph.node id).kind.children by rw [hn]; exact hc)).2
    rw [ih hinner hk hoptions, (hread.unique hg hread' hk hoptions).2]
  | @absent id k m operand raised hn hread =>
    have hinv := h'.once_inv
    rw [hn] at hinv
    obtain ⟨m', raised', hread', rfl⟩ := hinv
    have hoperand : operand < g.graph.size := (hg.child
      (show operand ∈ (g.graph.node id).kind.children by
        rw [hn]; exact List.mem_singleton_self _)).2
    rw [Option.some.inj (hread.unique hg hread' hk hoperand).1]
  | last hroom hfew hchain ih =>
    cases h' with
    | last _ _ hchain' => exact ih hchain' hk hin
    | more _ hread' =>
      obtain ⟨raised, hread⟩ := hchain.reads
      cases (hread.unique hg hread' hk hin).1
  | more hroom hread hne _ ih =>
    cases h' with
    | last _ _ hchain' =>
      obtain ⟨raised, hread'⟩ := hchain'.reads
      cases (hread.unique hg hread' hk hin).1
    | more _ hread' _ hrest' =>
      obtain rfl := Option.some.inj (hread.unique hg hread' hk hin).1
      exact ih hrest' (hread.bounds hk rfl).2 hin
  | blocked hchain ih =>
    have hid := hin _ List.mem_cons_self
    cases h' with
    | blocked hchain' => exact ih hchain' hk hid
    | onward hread' =>
      obtain ⟨raised, hread⟩ := hchain.reads
      cases (hread.unique hg hread' hk hid).1
  | onward hread _ ih =>
    have hid := hin _ List.mem_cons_self
    cases h' with
    | blocked hchain' =>
      obtain ⟨raised, hread'⟩ := hchain'.reads
      cases (hread.unique hg hread' hk hid).1
    | onward hread' hrest' =>
      obtain rfl := Option.some.inj (hread.unique hg hread' hk hid).1
      exact ih hrest' (hread.bounds hk rfl).2 fun c hc => hin c (List.mem_cons_of_mem _ hc)
  | committed hread _ ih =>
    have hid := hin _ List.mem_cons_self
    cases h' with
    | committed _ hchain' => exact ih hchain' hk hid
    | only hread' | skipped hread' => cases (hread.unique hg hread' hk hid).2
  | only hread _ ih =>
    have hid := hin _ List.mem_cons_self
    cases h' with
    | committed hread' => cases (hread.unique hg hread' hk hid).2
    | only _ hchain' => exact ih hchain' hk hid
    | skipped _ hrest' => cases hrest'
  | skipped hread hrest ih =>
    have hid := hin _ List.mem_cons_self
    cases h' with
    | committed hread' => cases (hread.unique hg hread' hk hid).2
    | only => cases hrest
    | skipped _ hrest' => exact ih hrest' hk fun c hc => hin c (List.mem_cons_of_mem _ hc)

end Fails

namespace Cursor

theorem covering_append (cs ds : List Char) : covering (byteCount cs) (cs ++ ds) = cs.length := by
  induction cs with
  | nil => cases ds <;> simp [byteCount, covering]
  | cons c cs ih =>
    have hpos := c.utf8Size_pos
    rw [List.cons_append, covering, byteCount, if_neg (by omega), Nat.add_sub_cancel_left, ih,
      List.length_cons]

theorem sliceFrom_atOffset (text : List Char) {k m : Nat} (hk : k ≤ m) :
    (atOffset text m).sliceFrom (atOffset text k).index = (text.drop k).take (m - k) := by
  have hsplit : text.take m = text.take k ++ (text.drop k).take (m - k) := by
    rw [← List.take_add, Nat.add_sub_cancel' hk]
  have hback : (atOffset text m).back = (text.take m).reverse := by
    simp [atOffset, ofChars, advance, List.reverseAux_eq]
  have hindex : (atOffset text m).index - (atOffset text k).index =
      byteCount ((text.drop k).take (m - k)).reverse := by
    rw [index_atOffset, index_atOffset, hsplit, byteCount_append, byteCount_reverse,
      Nat.add_sub_cancel_left]
  rw [sliceFrom, hindex, hback, hsplit, List.reverse_append, covering_append,
    List.take_left', List.reverse_reverse]
  rfl

end Cursor

namespace Attempt

variable {g : Grammar} {text : List Char}

/-- An attempt that fails leaves the chain of its own failure, whatever was entered before. -/
def Blames (g : Grammar) (text : List Char) (attempt : Attempt) (task : Task) : Prop :=
  ∀ k ≤ text.length, ∀ s s', attempt (.atOffset text k) s = some (none, s') →
    ∃ chain, Fails g text task k chain ∧ s'.failures = chain.reverse

theorem blames_repeated {attempt : Attempt} {id : Nat}
    (hproper : (g.graph.node id).repetition.IsProper) (hreaches : attempt.Reaches g text (.once id))
    (hblames : attempt.Blames g text (.once id)) (fuel count : Nat) :
    (repeated attempt (g.graph.node id).repetition fuel count).Blames g text
      (.rest id count) := by
  induction fuel generalizing count with
  | zero => exact fun _ _ _ _ hanswer => nomatch hanswer
  | succ fuel ih =>
    intro k hk s s' hanswer
    rw [repeated] at hanswer
    split at hanswer
    · next hroom =>
      split at hanswer
      · cases hanswer
      · next s₁ hfailed =>
        -- too few occurrences, so the one that failed is to blame
        have hfew : ¬(g.graph.node id).repetition.min ≤ count := by
          intro hmin
          simp [settle, hmin] at hanswer
        obtain ⟨chain, hchain, hfailures⟩ := hblames k hk s s₁ hfailed
        obtain rfl : s₁ = s' := (Prod.mk.inj (Option.some.inj hanswer)).2
        exact ⟨chain, .last hroom hfew hchain, hfailures⟩
      · next d s₁ hmatched =>
        obtain ⟨m, raised, hread, rfl, hle, hlen⟩ := hreaches.of_some hk hmatched
        split at hanswer
        · simp [settle] at hanswer
        · next hindex =>
          have hne : m ≠ k := fun heq => hindex ((Cursor.index_atOffset_inj hle hlen).2 heq)
          obtain ⟨chain, hchain, hfailures⟩ := ih (count + 1) m hlen s₁ s' hanswer
          exact ⟨chain, .more hroom hread hne hchain, hfailures⟩
    · next hfull =>
      -- what has no room for more has enough
      have hmin : (g.graph.node id).repetition.min ≤ count := by
        unfold Repetition.hasRoom at hfull
        cases hmax : (g.graph.node id).repetition.max with
        | none => simp [hmax] at hfull
        | some max =>
          have hle := hproper max hmax
          simp [hmax] at hfull
          omega
      simp [settle, hmin] at hanswer

theorem blames_inTurn {attempt : NodeId → Attempt} {ids : List NodeId}
    (h : ∀ id ∈ ids, (attempt id).Reaches g text (.whole id) ∧
      (attempt id).Blames g text (.whole id)) :
    (inTurn attempt ids).Blames g text (.inTurn ids) := by
  induction ids with
  | nil => exact fun _ _ _ _ hanswer => nomatch hanswer
  | cons id ids ih =>
    obtain ⟨⟨hreaches, hblames⟩, hrest⟩ := List.forall_mem_cons.1 h
    intro k hk s s' hanswer
    rw [inTurn] at hanswer
    split at hanswer
    · next d s₁ hmatched =>
      obtain ⟨m, raised, hread, rfl, -, hlen⟩ := hreaches.of_some hk hmatched
      obtain ⟨chain, hchain, hfailures⟩ := ih hrest m hlen s₁ s' hanswer
      exact ⟨chain, .onward hread hchain, hfailures⟩
    · obtain ⟨chain, hchain, hfailures⟩ := hblames k hk s s' hanswer
      exact ⟨chain, .blocked hchain, hfailures⟩

theorem blames_firstOf {attempt : NodeId → Attempt} {ids : List NodeId} (hne : ids ≠ [])
    (h : ∀ id ∈ ids, (attempt id).Reaches g text (.whole id) ∧
      (attempt id).Blames g text (.whole id)) {k : Nat} (hk : k ≤ text.length)
    {cuts : List Bool} {s s' : Session} (hs : s.cuts = false :: cuts)
    (hanswer : firstOf attempt ids (.atOffset text k) s = some (none, s')) :
    ∃ chain raised, Fails g text (.firstOf ids) k chain ∧
      Reads g text (.firstOf ids) k none raised ∧ s'.failures = chain.reverse ∧
        s'.cuts = raised :: cuts := by
  induction ids generalizing s with
  | nil => exact absurd rfl hne
  | cons id ids ih =>
    obtain ⟨⟨hreaches, hblames⟩, hrest⟩ := List.forall_mem_cons.1 h
    rw [firstOf] at hanswer
    split at hanswer
    · next s₁ hfailed =>
      obtain ⟨chain, hchain, hfailures⟩ := hblames k hk s s₁ hfailed
      obtain ⟨raised, hread, hcuts⟩ := hreaches.of_none hk hfailed
      rw [hs, raiseCut, Bool.false_or] at hcuts
      cases raised with
      | true =>
        rw [if_pos (by simp [Session.isCommitted, hcuts])] at hanswer
        obtain rfl : s₁ = s' := (Prod.mk.inj (Option.some.inj hanswer)).2
        exact ⟨chain, true, .committed hread hchain, .committed hread, hfailures, hcuts⟩
      | false =>
        rw [if_neg (by simp [Session.isCommitted, hcuts])] at hanswer
        cases ids with
        | nil =>
          obtain rfl : s₁ = s' := (Prod.mk.inj (Option.some.inj hanswer)).2
          exact ⟨chain, false, .only hread hchain, .skipped hread .exhausted, hfailures, hcuts⟩
        | cons id' ids =>
          obtain ⟨chain', raised, hchain', hread', hfailures', hcuts'⟩ :=
            ih (List.cons_ne_nil _ _) hrest hcuts hanswer
          exact ⟨chain', raised, .skipped hread hchain', .skipped hread hread', hfailures', hcuts'⟩
    · next hended =>
      exact absurd hanswer (hended s')

theorem blames_lookAhead {attempt : Attempt} {id operand : Nat} {positive : Bool}
    (hk : (g.graph.node id).kind = .lookAhead positive (some operand))
    (hreaches : attempt.Reaches g text (.whole operand))
    (hblames : attempt.Blames g text (.whole operand)) :
    (lookAhead positive attempt id).Blames g text (.once id) := by
  intro k hle s s' hanswer
  rw [lookAhead] at hanswer
  split at hanswer
  · cases hanswer
  · next result s₁ htried =>
    cases positive with
    | true =>
      cases result with
      | some d => cases hanswer
      | none =>
        obtain ⟨chain, hchain, hfailures⟩ := hblames k hle s s₁ htried
        obtain rfl := (Prod.mk.inj (Option.some.inj hanswer)).2
        refine ⟨_, .present hk hchain, ?_⟩
        rw [List.reverse_append, ← hfailures]
        rfl
    | false =>
      cases result with
      | none => cases hanswer
      | some d =>
        obtain ⟨m, raised, hread, rfl, hkm, -⟩ := hreaches.of_some hle htried
        obtain rfl := (Prod.mk.inj (Option.some.inj hanswer)).2
        refine ⟨_, .absent hk hread, ?_⟩
        rw [Cursor.sliceFrom_atOffset text hkm]
        rfl

theorem blames_occurrence {once repeated : NodeId → Attempt} {id : Nat} (hg : g.IsLinked)
    (hfresh : (g.graph.node id).IsFresh) (hid : id < g.graph.size)
    (honce : ∀ rule root, (∃ target, (g.graph.node id).kind = .reference rule target) →
      g.rules.lookup rule = some root → (once root).Blames g text (.once root))
    (hnode : ∀ c ∈ (g.graph.node id).kind.children,
      (repeated c).Reaches g text (.whole c) ∧ (repeated c).Blames g text (.whole c)) :
    (Graph.occurrence once repeated id (g.graph.node id).kind).Blames g text (.once id) := by
  intro k hle s s' hanswer
  cases hk : (g.graph.node id).kind with
  | terminal l =>
    rw [hk] at hanswer
    simp only [Graph.occurrence, Cursor.consume_atOffset] at hanswer
    split at hanswer
    · cases hanswer
    · next hconsume =>
      have hprefix : ¬l.toList <+: text.drop k := fun h => by simp [h] at hconsume
      obtain rfl := (Prod.mk.inj (Option.some.inj hanswer)).2
      exact ⟨_, .literal hk hprefix, rfl⟩
  | charClass set =>
    rw [hk] at hanswer
    simp only [Graph.occurrence, Cursor.next_atOffset] at hanswer
    cases hc : text[k]? with
    | none =>
      simp only [hc, Option.map_none] at hanswer
      obtain rfl := (Prod.mk.inj (Option.some.inj hanswer)).2
      exact ⟨_, .endOfText hk hc, rfl⟩
    | some c =>
      simp only [hc, Option.map_some] at hanswer
      split at hanswer
      · cases hanswer
      · next hnot =>
        obtain rfl := (Prod.mk.inj (Option.some.inj hanswer)).2
        exact ⟨_, .character hk hc (Bool.eq_false_iff.2 hnot), rfl⟩
  | reference rule target =>
    obtain ⟨root, rfl, hroot⟩ := hg.reference hid hk
    rw [hk] at hanswer
    obtain ⟨chain, hchain, hfailures⟩ := honce rule root ⟨_, hk⟩ hroot k hle s s' hanswer
    exact ⟨chain, .reference hk hroot hchain, hfailures⟩
  | group children | rule name children =>
    rw [hk] at hanswer hnode
    simp only [Graph.occurrence] at hanswer
    split at hanswer
    · next s₁ hfailed =>
      obtain ⟨chain, hchain, hfailures⟩ := blames_inTurn hnode k hle s s₁ hfailed
      obtain rfl := (Prod.mk.inj (Option.some.inj hanswer)).2
      refine ⟨_, by first | exact .group hk hchain | exact .rule hk hchain, ?_⟩
      rw [List.reverse_append, ← hfailures]
      rfl
    · next hended => exact absurd hanswer (hended s')
  | choice options weights escapes =>
    rw [hk] at hanswer hnode
    simp only [Graph.occurrence] at hanswer
    split at hanswer
    · cases hanswer
    · next result s₁ htried =>
      cases result with
      | some d => cases hanswer
      | none =>
        obtain ⟨chain, raised, hchain, hread, hfailures, hcuts⟩ :=
          blames_firstOf (hfresh.choice hk) hnode hle rfl htried
        obtain rfl := (Prod.mk.inj (Option.some.inj hanswer)).2
        have hcommitted : s₁.isCommitted = raised := by
          cases raised <;> simp [Session.isCommitted, hcuts]
        refine ⟨_, .choice hk hread hchain, ?_⟩
        rw [List.reverse_append, ← hfailures, hcommitted]
        rfl
  | lookAhead positive operand =>
    obtain ⟨o, rfl⟩ := hg.operand hk
    obtain ⟨hreaches, hblames⟩ := hnode o (by simp [hk, NodeKind.children])
    rw [hk] at hanswer
    exact blames_lookAhead hk hreaches hblames k hle s s' hanswer
  | cut =>
    rw [hk] at hanswer
    cases hanswer

end Attempt

section

variable {g : Grammar} {text : List Char}

theorem blames_attempt (hg : g.IsLinked) (hfresh : ∀ id, (g.graph.node id).IsFresh) (fuel : Nat) :
    ∀ id < g.graph.size, (g.graph.attempt fuel id).Blames g text (.once id) := by
  induction fuel with
  | zero => exact fun _ _ _ _ _ _ hanswer => nomatch hanswer
  | succ fuel ih =>
    intro id hid k hk s s' hanswer
    have hnode : ∀ c ∈ (g.graph.node id).kind.children,
        (g.graph.matchNode fuel c).Reaches g text (.whole c) ∧
          (g.graph.matchNode fuel c).Blames g text (.whole c) := by
      intro c hc
      have hin := (hg.child hc).2
      exact ⟨(decides_matchNode hg hin).reaches fuel,
        Attempt.blames_repeated (hfresh c).repetition ((decides_attempt hg hin).reaches fuel)
          (ih c hin) fuel 0⟩
    have hoccurrence := Attempt.blames_occurrence hg (hfresh id) hid
      (fun rule root _ hroot => ih root (hg.root hroot).1) hnode
    rw [Graph.attempt] at hanswer
    split at hanswer
    · cases hanswer
    · next result s₁ htried =>
      obtain ⟨rfl, rfl⟩ := Prod.mk.inj (Option.some.inj hanswer)
      obtain ⟨chain, hchain, hfailures⟩ := hoccurrence k hk _ s₁ htried
      exact ⟨chain, hchain, hfailures⟩

theorem blames_matchNode (hg : g.IsLinked) (hfresh : ∀ id, (g.graph.node id).IsFresh) (fuel : Nat)
    {id : Nat} (hid : id < g.graph.size) : (g.graph.matchNode fuel id).Blames g text (.whole id) :=
  Attempt.blames_repeated (hfresh id).repetition ((decides_attempt hg hid).reaches fuel)
    (blames_attempt hg hfresh fuel id hid) fuel 0

end

end Ebnf
