import Ebnf.Proofs.Contexts

/-! Grammars where one character decides. What an option starts with no other option starts with,
and where more occurrences may follow, the next character tells whether they do. On such a grammar
the matcher cannot go wrong: whatever text of the context-free reading stands where it is, it reads
just that text. -/

namespace Ebnf

namespace Grammar

/-- Below a root, without look-aheads and cuts, the next character decides (LL(1)). -/
structure IsLL1 (g : Grammar) (root : NodeId) : Prop where
  noLookAhead {id : NodeId} {positive : Bool} {operand : Option NodeId} : g.Reachable root id →
    (g.graph.node id).kind ≠ .lookAhead positive operand
  noCut {id : NodeId} : g.Reachable root id → (g.graph.node id).kind ≠ .cut
  /-- Different options start with different characters. -/
  disjoint {id : NodeId} {options : List NodeId} {weights escapes : Distribution} :
    g.Reachable root id → (g.graph.node id).kind = .choice options weights escapes →
    ∀ o ∈ options, ∀ o' ∈ options, o ≠ o' → ∀ c, g.Starts (.whole o) c → ¬g.Starts (.whole o') c
  /-- Only the last option may be empty. -/
  filled {id o : NodeId} {tried later : List NodeId} {weights escapes : Distribution} :
    g.Reachable root id → (g.graph.node id).kind = .choice (tried ++ o :: later) weights escapes →
    later ≠ [] → ¬Derives g (.whole o) [] 0
  /-- Where an option may be empty, what follows the alternative starts no other option. -/
  apart {id : NodeId} {options : List NodeId} {weights escapes : Distribution} :
    g.Reachable root id → (g.graph.node id).kind = .choice options weights escapes →
    ∀ o ∈ options, Derives g (.whole o) [] 0 → ∀ o' ∈ options, o ≠ o' →
    ∀ c, g.Starts (.whole o') c → ¬g.FollowedBy root id c
  occurrence {id : NodeId} : g.Reachable root id → (g.graph.node id).repetition ≠ .once →
    ¬Derives g (.once id) [] 0
  /-- Where the number of occurrences is free, what follows them starts no further one. -/
  ahead {id : NodeId} : g.Reachable root id →
    (g.graph.node id).repetition.max ≠ some (g.graph.node id).repetition.min →
    ∀ c, g.Starts (.once id) c → ¬g.FollowedBy root id c

end Grammar

def Task.Replays (g : Grammar) (root : NodeId) (text : List Char) (k : Nat) (e : Option Nat) :
    Task → Prop
  | once id => ∀ before t behind, Around g root (.once id) before behind →
      Derives g (.once id) t 0 → text.drop k = t ++ behind → e = some (k + t.length)
  | rest id count => ∀ more before t behind, Around g root (.times id more) before behind →
      (g.graph.node id).repetition.admits (count + more) = true →
      Derives g (.times id more) t 0 → text.drop k = t ++ behind → e = some (k + t.length)
  | inTurn ids => ∀ before t behind, Around g root (.inTurn ids) before behind →
      Derives g (.inTurn ids) t 0 → text.drop k = t ++ behind → e = some (k + t.length)
  | firstOf ids => ∀ id tried weights escapes before t behind,
      (g.graph.node id).kind = .choice (tried ++ ids) weights escapes →
      Around g root (.once id) before behind → (∃ o ∈ ids, Derives g (.whole o) t 0) →
      text.drop k = t ++ behind → e = some (k + t.length)

section

variable {g : Grammar} {root : NodeId} {text : List Char}

theorem Task.Replays.whole {id k : Nat} {e : Option Nat}
    (h : (Task.whole id).Replays g root text k e) {before t behind : List Char}
    (hat : Around g root (.whole id) before behind) (ht : Derives g (.whole id) t 0)
    (htext : text.drop k = t ++ behind) : e = some (k + t.length) := by
  obtain ⟨count, hcount, htimes⟩ := ht.whole_inv
  exact h count before t behind (hat.times hcount) (by rwa [Nat.zero_add]) htimes htext

theorem drop_add_length {k : Nat} {first rest : List Char} (h : text.drop k = first ++ rest) :
    text.drop (k + first.length) = rest := by
  rw [← List.drop_drop, h, List.drop_left]

theorem Reads.raised_eq_false {P : NodeId → Prop}
    (hclosed : ∀ id, P id → (g.graph.node id).kind ≠ .cut ∧ ∀ c, g.Leads id c → P c) {task : Task}
    {k : Nat} {e : Option Nat} {raised : Bool} (h : Reads g text task k e raised)
    (hin : task.On P) : raised = false := by
  induction h with
  | reference hk hroot _ ih => exact ih ((hclosed _ hin).2 _ (.reference hk hroot))
  | group hk _ ih | rule hk _ ih =>
    exact ih fun c hc => (hclosed _ hin).2 c (.child (by rw [hk]; exact hc))
  | lookAhead hk _ ih =>
    exact ih ((hclosed _ hin).2 _ (.child (by rw [hk]; exact List.mem_singleton_self _)))
  | cut hk => exact absurd hk (hclosed _ hin).1
  | last _ _ ih | empty _ _ ih => exact ih hin
  | more _ _ _ _ ih₁ ih₂ => rw [ih₁ hin, ih₂ hin, Bool.or_false]
  | blocked _ ih | taken _ ih | committed _ ih => exact ih (hin _ List.mem_cons_self)
  | onward _ _ ih₁ ih₂ =>
    rw [ih₁ (hin _ List.mem_cons_self), ih₂ fun c hc => hin c (List.mem_cons_of_mem _ hc),
      Bool.or_false]
  | skipped _ _ _ ih => exact ih fun c hc => hin c (List.mem_cons_of_mem _ hc)
  | literal | noLiteral | character | noCharacter | choice | full | done | exhausted => rfl

namespace Grammar.IsLL1

variable (hg : g.IsLinked) (hproper : ∀ id, (g.graph.node id).repetition.IsProper)
  (hll : g.IsLL1 root)

include hll in
theorem not_raised {task : Task} {k : Nat} {e : Option Nat} {raised : Bool}
    (h : Reads g text task k e raised) (hin : task.On (g.Reachable root)) : raised = false :=
  h.raised_eq_false (fun _ hid => ⟨hll.noCut hid, fun _ hstep => hid.tail hstep⟩) hin

include hproper hll in
theorem not_reads_further {id count k m : Nat} {raised : Bool} {before behind : List Char}
    (hat : Around g root (.times id 0) before behind)
    (hcount : (g.graph.node id).repetition.admits count = true)
    (hroom : (g.graph.node id).repetition.hasRoom count = true)
    (htext : text.drop k = behind) : ¬Reads g text (.once id) k (some m) raised := by
  intro hread
  have hid : g.Reachable root id := hat.reachable
  have hdiffer : (g.graph.node id).repetition.max ≠ some (g.graph.node id).repetition.min := by
    intro hmax
    have hlt := Repetition.hasRoom_iff.1 hroom _ hmax
    have hle := (Repetition.admits_iff.1 hcount).1
    omega
  have honce : (g.graph.node id).repetition ≠ .once := by
    intro heq
    rw [heq] at hdiffer
    exact hdiffer rfl
  obtain ⟨t, ht, hderives⟩ := hread.yields hproper rfl
  cases t with
  | nil => exact hll.occurrence hid honce hderives
  | cons c t =>
    rw [htext] at ht
    subst ht
    exact hll.ahead hid hdiffer c ⟨t, hderives⟩ (hat.followedBy_of_times .noTimes)

include hg hll in
theorem followedBy_of_once {id : NodeId} {options : List NodeId} {weights escapes : Distribution}
    {before behind : List Char} {c : Char} (hat : Around g root (.once id) before (c :: behind))
    (hk : (g.graph.node id).kind = .choice options weights escapes)
    (hempty : Derives g (.once id) [] 0) : g.FollowedBy root id c := by
  -- what may be empty has no quantifier
  have honce : (g.graph.node id).repetition = .once := by
    by_contra hquantified
    exact hll.occurrence hat.reachable hquantified hempty
  have hwhole := hat.whole_of_once hg honce fun name children hrule => by
    rw [hk] at hrule
    cases hrule
  have hall : Derives g (.whole id) [] 0 :=
    .whole (by rw [honce]; rfl) (.oneMore hempty .noTimes)
  exact ⟨_, _, _, hwhole, hall⟩

include hg hproper hll in
theorem not_reads_other {id o o' k m : Nat} {tried later : List NodeId}
    {weights escapes : Distribution} {raised : Bool} {before t behind : List Char}
    (hk : (g.graph.node id).kind = .choice (tried ++ o' :: later) weights escapes)
    (hat : Around g root (.once id) before behind) (ho : o ∈ later) (hne : o ≠ o')
    (ht : Derives g (.whole o) t 0) (htext : text.drop k = t ++ behind) :
    ¬Reads g text (.whole o') k (some m) raised := by
  intro hread
  have hid : g.Reachable root id := hat.reachable
  have hmem : o ∈ tried ++ o' :: later :=
    List.mem_append_right _ (List.mem_cons_of_mem _ ho)
  have hmem' : o' ∈ tried ++ o' :: later := List.mem_append_right _ List.mem_cons_self
  obtain ⟨t', ht', hyields⟩ := hread.yields hproper rfl
  have hderives := hyields.whole
  rw [htext] at ht'
  cases t' with
  | nil => exact hll.filled hid hk (List.ne_nil_of_mem ho) hderives
  | cons c t' =>
    cases t with
    | cons d t =>
      obtain ⟨rfl, -⟩ := List.cons.inj ht'
      exact hll.disjoint hid hk o hmem o' hmem' hne d ⟨t, ht⟩ ⟨t', hderives⟩
    | nil =>
      rw [List.nil_append] at ht'
      subst ht'
      exact hll.apart hid hk o hmem ht o' hmem' hne c ⟨t', hderives⟩
        (hll.followedBy_of_once hg hat hk (.option hk hmem ht))

include hg hproper hll in
theorem replays {task : Task} {k : Nat} {e : Option Nat} {raised : Bool}
    (h : Reads g text task k e raised) : task.Replays g root text k e := by
  induction h with
  | literal hk =>
    intro before t behind _ ht _
    have hinv := ht.once_inv
    rw [hk] at hinv
    rw [hinv]
  | noLiteral hk hprefix =>
    intro before t behind _ ht htext
    have hinv := ht.once_inv
    rw [hk] at hinv
    subst hinv
    exact absurd ⟨behind, htext.symm⟩ hprefix
  | character hk =>
    intro before t behind _ ht _
    have hinv := ht.once_inv
    rw [hk] at hinv
    obtain ⟨c, -, rfl⟩ := hinv
    rfl
  | @noCharacter id k set hk hnone =>
    intro before t behind _ ht htext
    have hinv := ht.once_inv
    rw [hk] at hinv
    obtain ⟨c, hc, rfl⟩ := hinv
    have hnext : text[k]? = some c := by
      rw [← List.head?_drop, htext]
      rfl
    rw [hnone c hnext] at hc
    cases hc
  | reference hk hroot _ ih =>
    intro before t behind hat ht htext
    have hinv := ht.once_inv
    rw [hk] at hinv
    obtain ⟨target, htarget, hderives⟩ := hinv
    obtain rfl := Option.some.inj (hroot.symm.trans htarget)
    exact ih before t behind (hat.reference hk hroot) hderives htext
  | group hk _ ih =>
    intro before t behind hat ht htext
    have hinv := ht.once_inv
    rw [hk] at hinv
    exact ih before t behind (hat.group hk) hinv htext
  | rule hk _ ih =>
    intro before t behind hat ht htext
    have hinv := ht.once_inv
    rw [hk] at hinv
    exact ih before t behind (hat.rule hk) hinv htext
  | @choice id k options weights escapes _ _ hk _ ih =>
    intro before t behind hat ht htext
    have hinv := ht.once_inv
    rw [hk] at hinv
    exact ih id [] weights escapes before t behind hk hat hinv htext
  | lookAhead hk =>
    intro before t behind hat
    exact absurd hk (hll.noLookAhead hat.reachable)
  | cut hk =>
    intro before t behind hat
    exact absurd hk (hll.noCut hat.reachable)
  | @full id count k hroom =>
    intro more before t behind hat hcount ht _
    cases more with
    | zero =>
      rw [ht.times_zero_inv]
      exact Repetition.stop_of_admits hcount k
    | succ more =>
      have hsome : (g.graph.node id).repetition.hasRoom count = true :=
        Repetition.hasRoom_iff.2 fun max hmax => by
          have hle := (Repetition.admits_iff.1 hcount).2 max hmax
          omega
      cases hroom.symm.trans hsome
  | @last id count k _ _ _ ih =>
    intro more before t behind hat hcount ht htext
    cases more with
    | zero =>
      rw [ht.times_zero_inv]
      exact Repetition.stop_of_admits hcount k
    | succ more =>
      obtain ⟨first, rest, rfl, hatFirst, hfirst, -, -⟩ := hat.split_times ht
      rw [List.append_assoc] at htext
      cases ih before first (rest ++ behind) hatFirst hfirst htext
  | @empty id count k _ hroom hread ih =>
    intro more before t behind hat hcount ht htext
    cases more with
    | zero =>
      rw [ht.times_zero_inv] at htext
      exact absurd hread (hll.not_reads_further hproper hat hcount hroom htext)
    | succ more =>
      obtain ⟨first, rest, rfl, hatFirst, hfirst, -, hrest⟩ := hat.split_times ht
      rw [List.append_assoc] at htext
      have hend := ih before first (rest ++ behind) hatFirst hfirst htext
      obtain rfl : first = [] := by
        have hlength := Option.some.inj hend
        exact List.eq_nil_of_length_eq_zero (by omega)
      -- an occurrence that may be empty is the only one
      have honce : (g.graph.node id).repetition = .once := by
        by_contra hquantified
        exact hll.occurrence hat.reachable hquantified hfirst
      rw [honce, Repetition.admits_iff] at hcount
      obtain rfl : more = 0 := by
        have hle := hcount.2 1 rfl
        omega
      rw [hrest.times_zero_inv]
      rfl
  | @more id count k m _ _ _ hroom hread _ _ ih₁ ih₂ =>
    intro more before t behind hat hcount ht htext
    cases more with
    | zero =>
      rw [ht.times_zero_inv] at htext
      exact absurd hread (hll.not_reads_further hproper hat hcount hroom htext)
    | succ more =>
      obtain ⟨first, rest, rfl, hatFirst, hfirst, hatRest, hrest⟩ := hat.split_times ht
      rw [List.append_assoc] at htext
      obtain rfl := Option.some.inj (ih₁ before first (rest ++ behind) hatFirst hfirst htext)
      rw [List.length_append, ← Nat.add_assoc]
      refine ih₂ more (before ++ first) rest behind hatRest ?_ hrest (drop_add_length htext)
      rwa [Nat.add_assoc, Nat.add_comm 1]
  | done =>
    intro before t behind _ ht _
    rw [ht.inTurn_nil_inv]
    rfl
  | blocked _ ih =>
    intro before t behind hat ht htext
    obtain ⟨first, rest, rfl, hatFirst, hfirst, -, -⟩ := hat.split_inTurn ht
    rw [List.append_assoc] at htext
    cases ih.whole hatFirst hfirst htext
  | onward _ _ ih₁ ih₂ =>
    intro before t behind hat ht htext
    obtain ⟨first, rest, rfl, hatFirst, hfirst, hatRest, hrest⟩ := hat.split_inTurn ht
    rw [List.append_assoc] at htext
    obtain rfl := Option.some.inj (ih₁.whole hatFirst hfirst htext)
    rw [List.length_append, ← Nat.add_assoc]
    exact ih₂ _ rest behind hatRest hrest (drop_add_length htext)
  | exhausted =>
    rintro id tried weights escapes before t behind _ _ ⟨o, ho, -⟩
    cases ho
  | @taken o' k m later _ hread ih =>
    rintro id tried weights escapes before t behind hk hat ⟨o, ho, hderives⟩ htext
    by_cases heq : o = o'
    · subst heq
      exact ih.whole (hat.option hk (List.mem_append_right _ List.mem_cons_self)) hderives htext
    · have hlater := (List.mem_cons.1 ho).resolve_left heq
      exact absurd hread (hll.not_reads_other hg hproper hk hat hlater heq hderives htext)
  | committed hread =>
    intro id tried weights escapes before t behind hk hat
    have hreachable := (hat.option hk (List.mem_append_right _ List.mem_cons_self)).reachable
    cases hll.not_raised hread hreachable
  | @skipped o' k later _ _ _ _ ih₁ ih₂ =>
    rintro id tried weights escapes before t behind hk hat ⟨o, ho, hderives⟩ htext
    rcases List.mem_cons.1 ho with rfl | ho
    · have hoption := hat.option hk (List.mem_append_right _ List.mem_cons_self)
      cases ih₁.whole hoption hderives htext
    · refine ih₂ id (tried ++ [o']) weights escapes before t behind ?_ hat ⟨o, ho, hderives⟩ htext
      rw [List.append_assoc]
      exact hk

end Grammar.IsLL1

end

end Ebnf
