import Ebnf.Proofs.LeftRecursion
import Ebnf.Proofs.Predictive

/-! Left recursion where one character decides. What asks for itself again at the same place may go
round once more before it comes to an end. Somewhere on the way round it must be able to leave, by
another option or by no occurrence at all, and there the next character would have to tell what it
does. But going round begins with what it leaves with, or with what may follow it. So in a grammar
whose left recursive nodes have a part in the texts of the root, there is no left recursion. -/

namespace Ebnf

variable {g : Grammar} {root : NodeId}

theorem Derives.whole_nil (hproper : ∀ id, (g.graph.node id).repetition.IsProper) {id : NodeId}
    (h : Derives g (.once id) [] 0) : Derives g (.whole id) [] 0 := by
  obtain ⟨count, hcount⟩ := Repetition.exists_admits (hproper id) fun _ _ => Nat.zero_le _
  exact .whole hcount (h.times_nil _)

theorem Derives.inTurn_nil {ids : List NodeId} (h : ∀ id ∈ ids, Derives g (.whole id) [] 0) :
    Derives g (.inTurn ids) [] 0 := by
  induction ids with
  | nil => exact .done
  | cons id ids ih =>
    obtain ⟨hid, hids⟩ := List.forall_mem_cons.1 h
    exact .onward hid (ih hids)

theorem Derives.exists_times {id : NodeId} {text : List Char} (h : Derives g (.once id) text 0)
    (count : Nat) : ∃ rest, Derives g (.times id count) rest 0 := by
  induction count with
  | zero => exact ⟨[], .noTimes⟩
  | succ count ih =>
    obtain ⟨rest, hrest⟩ := ih
    exact ⟨text ++ rest, .oneMore h hrest⟩

theorem Derives.exists_behind {id : NodeId} {before after : List NodeId} {text : List Char}
    (h : Derives g (.inTurn (before ++ id :: after)) text 0) :
    ∃ rest, Derives g (.inTurn after) rest 0 := by
  induction before generalizing text with
  | nil =>
    obtain ⟨-, rest, -, -, hrest⟩ := h.inTurn_cons_inv
    exact ⟨rest, hrest⟩
  | cons b before ih =>
    obtain ⟨-, rest, -, -, hrest⟩ := h.inTurn_cons_inv
    exact ih hrest

namespace Grammar

theorem PossiblyEmpty.derives (hg : g.IsLinked)
    (hproper : ∀ id, (g.graph.node id).repetition.IsProper) {id : NodeId}
    (h : g.PossiblyEmpty id) : Derives g (.whole id) [] 0 := by
  induction h with
  | @optional id hmin =>
    refine .whole (Repetition.admits_iff.2 ⟨hmin.le, fun _ _ => Nat.zero_le _⟩) .noTimes
  | terminal hk => exact Derives.whole_nil hproper (.terminal hk)
  | lookAhead hk => exact Derives.whole_nil hproper (.lookAhead hk)
  | cut hk => exact Derives.whole_nil hproper (.cut hk)
  | @reference id target rule link hk hroot _ ih =>
    obtain ⟨count, hcount, htimes⟩ := ih.whole_inv
    rw [(hg.root hroot).2.1, Repetition.admits_iff] at hcount
    obtain ⟨more, rfl⟩ : ∃ more, count = more + 1 := ⟨count - 1, (Nat.sub_add_cancel hcount.1).symm⟩
    obtain ⟨first, rest, hsplit, hfirst, -⟩ := htimes.times_succ_inv
    rw [(List.append_eq_nil_iff.1 hsplit.symm).1] at hfirst
    exact Derives.whole_nil hproper (.reference hk hroot hfirst)
  | group hk _ ih => exact Derives.whole_nil hproper (.group hk (Derives.inTurn_nil ih))
  | rule hk _ ih => exact Derives.whole_nil hproper (.rule hk (Derives.inTurn_nil ih))
  | choice hk ho _ ih => exact Derives.whole_nil hproper (.option hk ho ih)

/-- An occurrence of the node has a part in some text of the root. -/
def Occurs (g : Grammar) (root id : NodeId) : Prop :=
  ∃ before behind text, Around g root (.once id) before behind ∧ Derives g (.once id) text 0

theorem Occurs.exists_admits (hg : g.IsLinked) {id : NodeId} (h : g.Occurs root id) :
    ∃ count, (g.graph.node id).repetition.admits (count + 1) = true := by
  obtain ⟨before, behind, text, hat, htext⟩ := h
  cases hat with
  | @first _ count _ _ _ htimes hrest =>
    obtain ⟨-, -, all, -, hle, hall, -⟩ := htimes.whole_of_times (.oneMore htext hrest)
    obtain ⟨more, rfl⟩ : ∃ more, all = more + 1 := ⟨all - 1, by omega⟩
    exact ⟨more, hall⟩
  | reference _ _ hroot =>
    refine ⟨0, ?_⟩
    rw [(hg.root hroot).2.1]
    rfl

end Grammar

/-- In the first piece the second one may stand, with nothing before it and some text behind. -/
structure Leading (g : Grammar) (root : NodeId) (piece front : Piece) (rest : List Char) :
    Prop where
  derives {text : List Char} : Derives g front text 0 → Derives g piece (text ++ rest) 0
  around {before behind : List Char} : Around g root piece before behind →
    Around g root front before (rest ++ behind)

namespace Leading

variable {id : NodeId} {piece front front' : Piece} {rest rest' : List Char}

theorem refl (piece : Piece) : Leading g root piece piece [] where
  derives h := by rwa [List.append_nil]
  around h := h

theorem trans (h : Leading g root piece front rest) (h' : Leading g root front front' rest') :
    Leading g root piece front' (rest' ++ rest) where
  derives ht := by
    rw [← List.append_assoc]
    exact h.derives (h'.derives ht)
  around hat := by
    rw [List.append_assoc]
    exact h'.around (h.around hat)

theorem of_reference {target : NodeId} {rule : String} {link : Option NodeId}
    (hk : (g.graph.node id).kind = .reference rule link)
    (hroot : g.rules.lookup rule = some target) : Leading g root (.once id) (.once target) [] where
  derives ht := by
    rw [List.append_nil]
    exact .reference hk hroot ht
  around hat := hat.reference hk hroot

theorem of_group {children : List NodeId} (hk : (g.graph.node id).kind = .group children) :
    Leading g root (.once id) (.inTurn children) [] where
  derives ht := by
    rw [List.append_nil]
    exact .group hk ht
  around hat := hat.group hk

theorem of_rule {name : String} {children : List NodeId}
    (hk : (g.graph.node id).kind = .rule name children) :
    Leading g root (.once id) (.inTurn children) [] where
  derives ht := by
    rw [List.append_nil]
    exact .rule hk ht
  around hat := hat.rule hk

theorem of_option {options : List NodeId} {weights escapes : Distribution} {o : NodeId}
    (hk : (g.graph.node id).kind = .choice options weights escapes) (ho : o ∈ options) :
    Leading g root (.once id) (.whole o) [] where
  derives ht := by
    rw [List.append_nil]
    exact .option hk ho ht
  around hat := hat.option hk ho

theorem inTurn {before after : List NodeId} (hbefore : ∀ b ∈ before, Derives g (.whole b) [] 0)
    (hafter : Derives g (.inTurn after) rest 0) :
    Leading g root (.inTurn (before ++ id :: after)) (.whole id) rest := by
  induction before with
  | nil => exact ⟨fun ht => .onward ht hafter, fun hat => hat.head hafter⟩
  | cons b before ih =>
    obtain ⟨hb, hbefore⟩ := List.forall_mem_cons.1 hbefore
    have hskip : Leading g root (.inTurn (b :: (before ++ id :: after)))
        (.inTurn (before ++ id :: after)) [] := by
      refine ⟨fun ht => ?_, fun {front _} hat => ?_⟩
      · rw [List.append_nil]
        exact .onward hb ht
      · have htail := hat.tail hb
        rwa [List.append_nil] at htail
    have hrest := hskip.trans (ih hbefore)
    rwa [List.append_nil] at hrest

theorem exists_first (hg : g.IsLinked) (h : g.Occurs root id) :
    ∃ rest, Leading g root (.whole id) (.once id) rest := by
  obtain ⟨count, hcount⟩ := h.exists_admits hg
  obtain ⟨-, -, text, -, htext⟩ := h
  obtain ⟨rest, hrest⟩ := htext.exists_times count
  refine ⟨rest, fun ht => .whole hcount (.oneMore ht hrest), fun hat => ?_⟩
  exact (hat.times hcount).first hrest

variable (hg : g.IsLinked) (hproper : ∀ id, (g.graph.node id).repetition.IsProper)
  (hll : g.IsLL1 root)

include hg hproper hll in
theorem exists_of_leftChild {c : NodeId} (h : g.LeftChild id c) (hid : g.Occurs root id) :
    ∃ rest, Leading g root (.once id) (.whole c) rest := by
  obtain ⟨_, _, text, hat, htext⟩ := hid
  have hinv := htext.once_inv
  cases h with
  | group hk hbefore =>
    rw [hk] at hinv
    obtain ⟨rest, hrest⟩ := Derives.exists_behind hinv
    exact ⟨_, (of_group hk).trans (inTurn (fun b hb => (hbefore b hb).derives hg hproper) hrest)⟩
  | rule hk hbefore =>
    rw [hk] at hinv
    obtain ⟨rest, hrest⟩ := Derives.exists_behind hinv
    exact ⟨_, (of_rule hk).trans (inTurn (fun b hb => (hbefore b hb).derives hg hproper) hrest)⟩
  | choice hk ho => exact ⟨[], of_option hk ho⟩
  | lookAhead hk => exact absurd hk (hll.noLookAhead hat.reachable)

include hg hproper hll in
theorem exists_of_asks {c : NodeId} (h : g.Asks id c) (hid : g.Occurs root id)
    (hc : g.Occurs root c) : ∃ rest, Leading g root (.once id) (.once c) rest := by
  cases h with
  | child hchild =>
    obtain ⟨rest, hrest⟩ := exists_of_leftChild hg hproper hll hchild hid
    obtain ⟨more, hmore⟩ := exists_first hg hc
    exact ⟨_, hrest.trans hmore⟩
  | reference hk hroot => exact ⟨[], of_reference hk hroot⟩

end Leading

namespace Grammar

/-- Below the root, and left recursive. -/
structure Loops (g : Grammar) (root id : NodeId) : Prop where
  reachable : g.Reachable root id
  cycle : Relation.TransGen g.Asks id id

theorem Loops.of_path {id c : NodeId} (h : g.Loops root id)
    (hto : Relation.ReflTransGen g.Asks id c) (hfrom : Relation.ReflTransGen g.Asks c id) :
    g.Loops root c := by
  refine ⟨h.reachable.trans ?_, (Relation.TransGen.trans_right hfrom h.cycle).trans_left hto⟩
  exact Relation.ReflTransGen.mono (fun _ _ hasks => isWalk_asks.leads hasks) _ _ hto

theorem Loops.exists_next {id : NodeId} (h : g.Loops root id) :
    ∃ c, g.Asks id c ∧ Relation.ReflTransGen g.Asks c id ∧ g.Loops root c := by
  obtain ⟨c, hc, hback⟩ := Relation.TransGen.head'_iff.1 h.cycle
  exact ⟨c, hc, hback, h.of_path (.single hc) hback⟩

end Grammar

def Piece.Leaves (g : Grammar) (root : NodeId) : Piece → Prop
  | once id => ¬g.Loops root id
  | times id count => g.Loops root id → count = 0
  | whole id => g.Loops root id → (g.graph.node id).repetition.min = 0
  | inTurn ids => ∀ id ∈ ids, g.Loops root id → (g.graph.node id).repetition.min = 0

namespace Grammar.IsLL1

variable (hg : g.IsLinked) (hproper : ∀ id, (g.graph.node id).repetition.IsProper)
  (hll : g.IsLL1 root)

include hll in
theorem option_eq_of_nil {id o o' : NodeId} {options : List NodeId}
    {weights escapes : Distribution} (hid : g.Reachable root id)
    (hk : (g.graph.node id).kind = .choice options weights escapes) (ho : o ∈ options)
    (ho' : o' ∈ options) (h : Derives g (.whole o) [] 0) (h' : Derives g (.whole o') [] 0) :
    o = o' := by
  by_contra hne
  obtain ⟨tried, later, rfl⟩ := List.append_of_mem ho
  rcases List.mem_append.1 ho' with htried | hlater
  · obtain ⟨before, after, rfl⟩ := List.append_of_mem htried
    rw [List.append_assoc, List.cons_append] at hk
    exact hll.filled hid hk (by simp) h'
  · have hmem := (List.mem_cons.1 hlater).resolve_left fun heq => hne heq.symm
    exact hll.filled hid hk (List.ne_nil_of_mem hmem) h

variable (hoccurs : ∀ id, g.Loops root id → g.Occurs root id)

include hg hproper hll hoccurs in
theorem exists_leading_of_path {id c : NodeId} (hid : g.Loops root id)
    (hto : Relation.ReflTransGen g.Asks id c) (hfrom : Relation.ReflTransGen g.Asks c id) :
    ∃ rest, Leading g root (.once id) (.once c) rest := by
  induction hto with
  | refl => exact ⟨[], .refl _⟩
  | @tail x c hpath hlast ih =>
    have hround : Relation.ReflTransGen g.Asks x id := .head hlast hfrom
    have hx := hoccurs x (hid.of_path hpath hround)
    have hc := hoccurs c (hid.of_path (hpath.tail hlast) hfrom)
    obtain ⟨rest, hrest⟩ := ih hround
    obtain ⟨more, hmore⟩ := Leading.exists_of_asks hg hproper hll hlast hx hc
    exact ⟨_, hrest.trans hmore⟩

include hg hproper hll hoccurs in
theorem not_optional {id c : NodeId} (hc : g.Loops root c) (hchild : g.LeftChild id c)
    (hback : Relation.ReflTransGen g.Asks c id) : (g.graph.node c).repetition.min ≠ 0 := by
  intro hmin
  have hid : g.Loops root id := hc.of_path hback (.single (.child hchild))
  have hempty : Derives g (.whole c) [] 0 :=
    .whole (Repetition.admits_iff.2 ⟨hmin.le, fun _ _ => Nat.zero_le _⟩) .noTimes
  have hquantified : (g.graph.node c).repetition ≠ .once := by
    intro honce
    rw [honce] at hmin
    cases hmin
  -- an occurrence of `c` may go round, leave `c` out and end with what stands behind
  obtain ⟨rest, hrest⟩ :=
    hll.exists_leading_of_path hg hproper hoccurs hc hback (.single (.child hchild))
  obtain ⟨more, hmore⟩ := Leading.exists_of_leftChild hg hproper hll hchild (hoccurs id hid)
  have hround := hrest.trans hmore
  have hderives := hround.derives hempty
  rw [List.nil_append] at hderives
  obtain ⟨before, behind, text, hat, htext⟩ := hoccurs c hc
  have hinner := hround.around hat
  cases heq : more ++ rest with
  | nil =>
    rw [heq] at hderives
    exact hll.occurrence hc.reachable hquantified hderives
  | cons d tail =>
    rw [heq] at hderives hinner
    refine hll.ahead hc.reachable (fun hmax => ?_) d ⟨tail, hderives⟩ ⟨_, _, _, hinner, hempty⟩
    obtain ⟨count, hcount⟩ := (hoccurs c hc).exists_admits hg
    have hle := (Repetition.admits_iff.1 hcount).2 _ hmax
    omega

include hg hproper hll hoccurs in
theorem not_option {id o c : NodeId} {options : List NodeId} {weights escapes : Distribution}
    {text : List Char} (hid : g.Loops root id)
    (hk : (g.graph.node id).kind = .choice options weights escapes) (ho : o ∈ options)
    (hc : c ∈ options) (hne : o ≠ c) (hback : Relation.ReflTransGen g.Asks c id) :
    ¬Derives g (.whole o) text 0 := by
  intro htext
  have hasks : g.Asks id c := .child (.choice hk hc)
  have hloops : g.Loops root c := hid.of_path (.single hasks) hback
  -- the option `c` may go round and leave by `o`
  obtain ⟨rest, hrest⟩ := hll.exists_leading_of_path hg hproper hoccurs hloops hback (.single hasks)
  obtain ⟨more, hmore⟩ := Leading.exists_first hg (hoccurs c hloops)
  have hround := hmore.trans hrest
  have hderives := hround.derives (.option hk ho htext)
  cases text with
  | cons d text =>
    exact hll.disjoint hid.reachable hk o ho c hc hne d ⟨text, htext⟩ ⟨_, hderives⟩
  | nil =>
    rw [List.nil_append] at hderives
    cases heq : rest ++ more with
    | nil =>
      rw [heq] at hderives
      exact hne (hll.option_eq_of_nil hid.reachable hk ho hc htext hderives)
    | cons d tail =>
      rw [heq] at hderives
      obtain ⟨before, behind, -, hat, -⟩ := hoccurs id hid
      have hinner := hround.around (hat.option hk hc)
      rw [heq] at hinner
      exact hll.apart hid.reachable hk o ho htext c hc hne d ⟨tail, hderives⟩
        (hll.followedBy_of_once hg hinner hk (.option hk ho htext))

include hg hproper hll hoccurs in
theorem leaves {piece : Piece} {text : List Char} {holes : Nat}
    (h : Derives g piece text holes) (hholes : holes = 0) : piece.Leaves g root := by
  induction h with
  | terminal hk | character hk =>
    intro hid
    obtain ⟨c, hasks, -⟩ := hid.exists_next
    cases hasks with
    | child hchild =>
      have hmem := hchild.mem_children
      rw [hk] at hmem
      cases hmem
    | reference hk' => cases hk.symm.trans hk'
  | @reference id target _ rule link text hk hroot _ ih =>
    intro hid
    obtain ⟨c, hasks, -, hc⟩ := hid.exists_next
    cases hasks with
    | child hchild =>
      have hmem := hchild.mem_children
      rw [hk] at hmem
      cases hmem
    | reference hk' hroot' =>
      obtain ⟨rfl, -⟩ := NodeKind.reference.inj (hk.symm.trans hk')
      obtain rfl := Option.some.inj (hroot.symm.trans hroot')
      exact ih hholes hc
  | group hk _ ih | rule hk _ ih =>
    intro hid
    obtain ⟨c, hasks, hback, hc⟩ := hid.exists_next
    cases hasks with
    | child hchild =>
      have hmem := hchild.mem_children
      rw [hk] at hmem
      exact hll.not_optional hg hproper hoccurs hc hchild hback (ih hholes c hmem hc)
    | reference hk' => cases hk.symm.trans hk'
  | @option id o _ options weights escapes text hk ho hderives ih =>
    subst hholes
    intro hid
    obtain ⟨c, hasks, hback, hc⟩ := hid.exists_next
    cases hasks with
    | child hchild =>
      have hmem := hchild.mem_children
      rw [hk] at hmem
      by_cases heq : o = c
      · subst heq
        exact hll.not_optional hg hproper hoccurs hc hchild hback (ih rfl hc)
      · exact hll.not_option hg hproper hoccurs hid hk ho hmem heq hback hderives
    | reference hk' => cases hk.symm.trans hk'
  | lookAhead hk => exact fun hid => hll.noLookAhead hid.reachable hk
  | cut hk => exact fun hid => hll.noCut hid.reachable hk
  | openReference | openChoice => cases hholes
  | noTimes => exact fun _ => rfl
  | oneMore _ _ ih =>
    intro hid
    exact absurd hid (ih (by omega))
  | whole hcount _ ih =>
    intro hid
    rw [ih hholes hid, Repetition.admits_iff] at hcount
    exact Nat.le_zero.1 hcount.1
  | done => exact List.forall_mem_nil _
  | onward _ _ ih₁ ih₂ => exact List.forall_mem_cons.2 ⟨ih₁ (by omega), ih₂ (by omega)⟩

include hg hproper hll hoccurs in
theorem readable (hroot : root < g.graph.size) {text : List Char} {task : Task} {k : Nat}
    (hk : k ≤ text.length) (htask : task.On (g.Reachable root)) : Readable g text task k := by
  have hin : ∀ id : Nat, g.Reachable root id → id < g.graph.size := by
    intro id hid
    induction hid with
    | refl => exact hroot
    | tail _ hstep _ => exact isWalk_leads.inside hg hstep
  have hirrefl : ∀ id, g.Reachable root id → ¬Relation.TransGen g.Asks id id := by
    intro id hid hcycle
    obtain ⟨-, -, text, -, htext⟩ := hoccurs id ⟨hid, hcycle⟩
    exact hll.leaves hg hproper hoccurs htext rfl ⟨hid, hcycle⟩
  refine readable_of_acc hg hin (fun _ _ hid hstep => hid.tail hstep) (fun id hid => ?_) hk htask
  exact acc_of_irrefl hin (fun _ _ hid hasks => hid.tail (isWalk_asks.leads hasks)) hirrefl hid

end Grammar.IsLL1

end Ebnf
