import Ebnf.Proofs.LeftCycles

/-! Tables that show that one character decides. A table says of some nodes whether an occurrence
may be empty, what it may start with, and what may follow the node or one of its occurrences. If it
fits the grammar, whatever is derived and whatever stands around it is as the table says, and then
the conditions on what starts and follows can be checked in the table alone. -/

namespace Ebnf

structure Forecast where
  nodes : List NodeId
  empty : NodeId → Bool
  first : NodeId → List Char
  /-- What may follow the node with all its occurrences. -/
  follow : NodeId → List Char
  /-- What may follow one occurrence. -/
  behind : NodeId → List Char
  /-- Goes down from what asks to what is asked for at the same place. -/
  rank : NodeId → Nat

/-- A text that is empty only if it may be, and otherwise starts with one of some characters. -/
def Begins (empty : Bool) (first : List Char) : List Char → Prop
  | [] => empty = true
  | c :: _ => c ∈ first

namespace Begins

variable {e e' : Bool} {xs ys text rest : List Char}

theorem append (h : Begins e xs text) (h' : Begins e' ys rest) :
    Begins (e && e') (xs ++ if e then ys else []) (text ++ rest) := by
  cases text with
  | cons c text => exact List.mem_append_left _ h
  | nil =>
    have he : e = true := h
    subst he
    cases rest with
    | nil => exact h'
    | cons c rest => exact List.mem_append_right _ h'

theorem mono (h : Begins e xs text) (he : e = true → e' = true) (hxs : xs ⊆ ys) :
    Begins e' ys text := by
  cases text with
  | nil => exact he h
  | cons c text => exact hxs h

end Begins

/-- Whether a part has no characters but these. Those of a range are told by their code points. -/
def CharPart.Within (chars : List Char) : CharPart → Prop
  | range first last => ∀ i ∈ List.range (last.toNat - first.toNat + 1),
      first.toNat + i ∈ chars.map Char.toNat
  | choice part => part ⊆ chars

theorem CharPart.Within.mem {chars : List Char} {p : CharPart} {c : Char} (h : p.Within chars)
    (hc : p.contains c = true) : c ∈ chars := by
  cases p with
  | range first last =>
    simp only [contains, Bool.and_eq_true, decide_eq_true_eq] at hc
    have hfirst : first.toNat ≤ c.toNat := hc.1
    have hlast : c.toNat ≤ last.toNat := hc.2
    have hmem := h (c.toNat - first.toNat) (List.mem_range.2 (by omega))
    rw [Nat.add_sub_cancel' hfirst] at hmem
    obtain ⟨d, hd, heq⟩ := List.mem_map.1 hmem
    rwa [Char.toNat_inj.1 heq] at hd
  | choice part => exact h (List.contains_iff_mem.1 hc)

instance (chars : List Char) : DecidablePred (CharPart.Within chars)
  | .range _ _ => inferInstanceAs (Decidable (∀ i ∈ List.range _, _))
  | .choice part => inferInstanceAs (Decidable (part ⊆ chars))

instance (empty : Bool) (first : List Char) : DecidablePred (Begins empty first)
  | [] => inferInstanceAs (Decidable (empty = true))
  | c :: _ => inferInstanceAs (Decidable (c ∈ first))

def Apart (xs ys : List Char) : Prop := ∀ c ∈ xs, c ∉ ys

instance (xs ys : List Char) : Decidable (Apart xs ys) := List.decidableBAll (· ∉ ys) xs

namespace Forecast

section

variable (t : Forecast) (g : Grammar)

def emptyWhole (id : NodeId) : Bool :=
  (g.graph.node id).repetition.min = 0 || t.empty id

def firstRow : List NodeId → List Char
  | [] => []
  | id :: ids => t.first id ++ if t.emptyWhole g id then firstRow ids else []

/-- What follows a node is told for every node of a row that is followed by some characters. -/
def Spreads (after : List Char) : List NodeId → Prop
  | [] => True
  | id :: ids =>
    t.firstRow g ids ++ (if ids.all (t.emptyWhole g) then after else []) ⊆ t.follow id ∧
      Spreads after ids

/-- What is said of a node agrees with what is said of those that it leads to. -/
def FitsKind (id : NodeId) : NodeKind → Prop
  | .terminal l => Begins (t.empty id) (t.first id) l.toList
  | .charClass set => ∀ p ∈ set.parts, p.Within (t.first id)
  | .reference rule _ => ∀ target ∈ g.rules.lookup rule, target ∈ t.nodes ∧
      (t.empty target = true → t.empty id = true) ∧ t.first target ⊆ t.first id ∧
        t.behind id ⊆ t.behind target
  | .group children | .rule _ children => children ⊆ t.nodes ∧
      (children.all (t.emptyWhole g) = true → t.empty id = true) ∧
        t.firstRow g children ⊆ t.first id ∧ t.Spreads g (t.behind id) children
  | .choice options _ _ => ∀ o ∈ options, o ∈ t.nodes ∧
      (t.emptyWhole g o = true → t.empty id = true) ∧ t.first o ⊆ t.first id ∧
        t.behind id ⊆ t.follow o
  | .lookAhead _ _ | .cut => False

/-- An occurrence is followed by another one or by what follows the node. -/
def Fits (id : NodeId) : Prop :=
  t.FitsKind g id (g.graph.node id).kind ∧ t.follow id ⊆ t.behind id ∧
    ((g.graph.node id).repetition.max = some 1 ∨ t.first id ⊆ t.behind id)

def TellsOptions (id : NodeId) (options : List NodeId) : Prop :=
  (∀ o ∈ options.dropLast, t.emptyWhole g o = false) ∧
    ∀ o ∈ options, ∀ o' ∈ options, o = o' ∨ Apart (t.first o) (t.first o') ∧
      (t.emptyWhole g o = true → Apart (t.first o') (t.follow id))

def TellsKind (id : NodeId) : NodeKind → Prop
  | .choice options _ _ => t.TellsOptions g id options
  | _ => True

def Tells (id : NodeId) : Prop :=
  t.TellsKind g id (g.graph.node id).kind ∧
    ((g.graph.node id).repetition = .once ∨ t.empty id = false) ∧
      ((g.graph.node id).repetition.max = some (g.graph.node id).repetition.min ∨
        Apart (t.first id) (t.follow id))

def Check (root : NodeId) : Prop :=
  root ∈ t.nodes ∧ ∀ id ∈ t.nodes, t.Fits g id ∧ t.Tells g id

def Descends (bound : Nat) : List NodeId → Prop
  | [] => True
  | id :: ids => t.rank id < bound ∧ (t.emptyWhole g id = true → Descends bound ids)

def RanksKind (id : NodeId) : NodeKind → Prop
  | .reference rule _ => ∀ target ∈ g.rules.lookup rule, t.rank target < t.rank id
  | .group children | .rule _ children => t.Descends g (t.rank id) children
  | .choice options _ _ => ∀ o ∈ options, t.rank o < t.rank id
  | _ => True

def Ranks : Prop := ∀ id ∈ t.nodes, t.RanksKind g id (g.graph.node id).kind

instance decidableSpreads (after : List Char) : DecidablePred (t.Spreads g after)
  | [] => inferInstanceAs (Decidable True)
  | _ :: ids =>
    have := decidableSpreads after ids
    inferInstanceAs (Decidable (_ ∧ t.Spreads g after ids))

instance decidableDescends (bound : Nat) : DecidablePred (t.Descends g bound)
  | [] => inferInstanceAs (Decidable True)
  | _ :: ids =>
    have := decidableDescends bound ids
    inferInstanceAs (Decidable (_ ∧ (_ → t.Descends g bound ids)))

instance (id : NodeId) : DecidablePred (t.FitsKind g id)
  | .terminal l => inferInstanceAs (Decidable (Begins (t.empty id) (t.first id) l.toList))
  | .charClass set => inferInstanceAs (Decidable (∀ p ∈ set.parts, p.Within (t.first id)))
  | .reference rule _ => inferInstanceAs (Decidable (∀ target ∈ g.rules.lookup rule, _ ∧ _))
  | .group children | .rule _ children => inferInstanceAs (Decidable (children ⊆ t.nodes ∧ _))
  | .choice options _ _ => inferInstanceAs (Decidable (∀ o ∈ options, _ ∧ _))
  | .lookAhead _ _ | .cut => inferInstanceAs (Decidable False)

instance (id : NodeId) : Decidable (t.Fits g id) := inferInstanceAs (Decidable (_ ∧ _ ∧ _))

instance (id : NodeId) (options : List NodeId) : Decidable (t.TellsOptions g id options) :=
  inferInstanceAs (Decidable ((∀ o ∈ options.dropLast, _) ∧ ∀ o ∈ options, ∀ o' ∈ options, _))

instance (id : NodeId) : DecidablePred (t.TellsKind g id)
  | .choice options _ _ => inferInstanceAs (Decidable (t.TellsOptions g id options))
  | .terminal _ | .charClass _ | .reference _ _ | .group _ | .rule _ _ | .lookAhead _ _ | .cut =>
    inferInstanceAs (Decidable True)

instance (id : NodeId) : Decidable (t.Tells g id) := inferInstanceAs (Decidable (_ ∧ _ ∧ _))

instance (root : NodeId) : Decidable (t.Check g root) :=
  inferInstanceAs (Decidable (root ∈ t.nodes ∧ ∀ id ∈ t.nodes, _))

instance (id : NodeId) : DecidablePred (t.RanksKind g id)
  | .reference rule _ => inferInstanceAs (Decidable (∀ target ∈ g.rules.lookup rule, _))
  | .group children | .rule _ children =>
    inferInstanceAs (Decidable (t.Descends g (t.rank id) children))
  | .choice options _ _ => inferInstanceAs (Decidable (∀ o ∈ options, _))
  | .terminal _ | .charClass _ | .lookAhead _ _ | .cut => inferInstanceAs (Decidable True)

instance : Decidable (t.Ranks g) := inferInstanceAs (Decidable (∀ id ∈ t.nodes, _))

def BeginsAs (text : List Char) : Piece → Prop
  | .once id => Begins (t.empty id) (t.first id) text
  | .times id count => Begins (count = 0 || t.empty id) (t.first id) text
  | .whole id => Begins (t.emptyWhole g id) (t.first id) text
  | .inTurn ids => Begins (ids.all (t.emptyWhole g)) (t.firstRow g ids) text

def FollowedAs (text : List Char) : Piece → Prop
  | .once id => Begins true (t.behind id) text
  | .times id _ | .whole id => Begins true (t.follow id) text
  | .inTurn ids => ∃ after, t.Spreads g after ids ∧ Begins true after text

end

variable {t : Forecast} {g : Grammar} {root : NodeId}

theorem mem_of_leads (hfits : ∀ id ∈ t.nodes, t.Fits g id) {id c : NodeId} (hid : id ∈ t.nodes)
    (h : g.Leads id c) : c ∈ t.nodes := by
  have hkind := (hfits id hid).1
  cases h with
  | child hc =>
    revert hkind hc
    cases (g.graph.node id).kind with
    | terminal | charClass | reference | cut => exact fun _ hc => nomatch hc
    | group children | rule name children => exact fun hkind hc => hkind.1 hc
    | choice options weights escapes => exact fun hkind hc => (hkind _ hc).1
    | lookAhead => exact fun hkind _ => hkind.elim
  | reference hk hroot =>
    rw [hk] at hkind
    exact (hkind _ hroot).1

theorem mem_of_reachable (hfits : ∀ id ∈ t.nodes, t.Fits g id) (hroot : root ∈ t.nodes)
    {id : NodeId} (h : g.Reachable root id) : id ∈ t.nodes := by
  induction h with
  | refl => exact hroot
  | tail _ hstep ih => exact mem_of_leads hfits ih hstep

theorem beginsAs (hfits : ∀ id ∈ t.nodes, t.Fits g id) {piece : Piece} {text : List Char}
    {holes : Nat} (h : Derives g piece text holes) (hholes : holes = 0)
    (hin : piece.On (· ∈ t.nodes)) : t.BeginsAs g text piece := by
  induction h with
  | terminal hk =>
    have hkind := (hfits _ hin).1
    rwa [hk] at hkind
  | @character id set c hk hc =>
    have hkind := (hfits _ hin).1
    rw [hk] at hkind
    obtain ⟨part, hpart, hmem⟩ := List.any_eq_true.1 hc
    exact (hkind part hpart).mem hmem
  | reference hk hroot _ ih =>
    have hkind := (hfits _ hin).1
    rw [hk] at hkind
    obtain ⟨htarget, hempty, hfirst, -⟩ := hkind _ hroot
    exact (ih hholes htarget).mono hempty hfirst
  | group hk _ ih | rule hk _ ih =>
    have hkind := (hfits _ hin).1
    rw [hk] at hkind
    obtain ⟨hchildren, hempty, hfirst, -⟩ := hkind
    exact (ih hholes fun c hc => hchildren hc).mono hempty hfirst
  | option hk ho _ ih =>
    have hkind := (hfits _ hin).1
    rw [hk] at hkind
    obtain ⟨hoption, hempty, hfirst, -⟩ := hkind _ ho
    exact (ih hholes hoption).mono hempty hfirst
  | lookAhead hk | cut hk =>
    have hkind := (hfits _ hin).1
    rw [hk] at hkind
    exact hkind.elim
  | openReference | openChoice => cases hholes
  | noTimes => rfl
  | oneMore _ _ ih₁ ih₂ =>
    refine ((ih₁ (by omega) hin).append (ih₂ (by omega) hin)).mono (fun hboth => ?_) ?_
    · simp [(Bool.and_eq_true_iff.1 hboth).1]
    · refine List.append_subset.2 ⟨List.Subset.refl _, ?_⟩
      split
      · exact List.Subset.refl _
      · exact List.nil_subset _
  | whole hcount _ ih =>
    refine (ih hholes hin).mono (fun hempty => ?_) (List.Subset.refl _)
    rcases Bool.or_eq_true_iff.1 hempty with hzero | hempty
    · rw [of_decide_eq_true hzero] at hcount
      simp [emptyWhole, Nat.le_zero.1 (Repetition.admits_iff.1 hcount).1]
    · simp [emptyWhole, hempty]
  | done => rfl
  | onward _ _ ih₁ ih₂ =>
    have hid := hin _ List.mem_cons_self
    have hids := ih₂ (by omega) fun c hc => hin c (List.mem_cons_of_mem _ hc)
    exact (ih₁ (by omega) hid).append hids

theorem followedAs (hfits : ∀ id ∈ t.nodes, t.Fits g id) (hroot : root ∈ t.nodes) {piece : Piece}
    {before behind : List Char} (h : Around g root piece before behind) :
    t.FollowedAs g behind piece := by
  induction h with
  | top => rfl
  | times _ _ ih => exact ih
  | @first id count _ rest behind hat hrest ih =>
    have hid := mem_of_reachable hfits hroot hat.reachable
    obtain ⟨-, hfollow, hmore⟩ := hfits id hid
    have hbegins : Begins (count = 0 || t.empty id) (t.first id) rest :=
      beginsAs hfits hrest rfl hid
    cases rest with
    | nil => exact ih.mono (fun h => h) hfollow
    | cons c rest =>
      refine hmore.elim (fun hone => ?_) fun hfirst => hfirst hbegins
      -- there is a second occurrence
      cases count with
      | zero => cases hrest.times_zero_inv
      | succ count =>
        obtain ⟨_, _, -, hnext, -⟩ := hrest.times_succ_inv
        obtain ⟨-, -, all, -, hle, hall, -⟩ := hat.whole_of_times (.oneMore hnext hrest)
        have hmax := (Repetition.admits_iff.1 hall).2 1 hone
        omega
  | later _ _ ih => exact ih
  | reference hat hk htarget ih =>
    have hkind := (hfits _ (mem_of_reachable hfits hroot hat.reachable)).1
    rw [hk] at hkind
    obtain ⟨-, -, -, hbehind⟩ := hkind _ htarget
    exact ih.mono (fun h => h) hbehind
  | group hat hk ih | rule hat hk ih =>
    have hkind := (hfits _ (mem_of_reachable hfits hroot hat.reachable)).1
    rw [hk] at hkind
    exact ⟨_, hkind.2.2.2, ih⟩
  | option hat hk ho ih =>
    have hkind := (hfits _ (mem_of_reachable hfits hroot hat.reachable)).1
    rw [hk] at hkind
    obtain ⟨-, -, -, hfollow⟩ := hkind _ ho
    exact ih.mono (fun h => h) hfollow
  | head hat hrest ih =>
    obtain ⟨after, ⟨hfollow, -⟩, hafter⟩ := ih
    have hids := beginsAs hfits hrest rfl fun c hc =>
      mem_of_reachable hfits hroot (hat.reachable c (List.mem_cons_of_mem _ hc))
    exact (hids.append hafter).mono (fun _ => rfl) hfollow
  | tail _ _ ih =>
    obtain ⟨after, ⟨-, hspreads⟩, hafter⟩ := ih
    exact ⟨after, hspreads, hafter⟩

theorem not_followedBy (hcheck : t.Check g root) {id : NodeId} {c : Char}
    (hc : c ∉ t.follow id) : ¬g.FollowedBy root id c := by
  rintro ⟨_, _, _, hat, -⟩
  exact hc (followedAs (fun id hid => (hcheck.2 id hid).1) hcheck.1 hat)

theorem isLL1 (hcheck : t.Check g root) : g.IsLL1 root := by
  have hfits : ∀ id ∈ t.nodes, t.Fits g id := fun id hid => (hcheck.2 id hid).1
  have hmem : ∀ {id}, g.Reachable root id → id ∈ t.nodes := mem_of_reachable hfits hcheck.1
  have hoption : ∀ {id o : NodeId} {options : List NodeId} {weights escapes : Distribution},
      g.Reachable root id → (g.graph.node id).kind = .choice options weights escapes →
        o ∈ options → o ∈ t.nodes := fun hid hk ho =>
    mem_of_leads hfits (hmem hid) (.child (by rw [hk]; exact ho))
  have hbegins : ∀ {id text}, id ∈ t.nodes → Derives g (.whole id) text 0 →
      Begins (t.emptyWhole g id) (t.first id) text := fun hid htext =>
    beginsAs hfits htext rfl hid
  have htells : ∀ {id : NodeId} {options : List NodeId} {weights escapes : Distribution},
      g.Reachable root id → (g.graph.node id).kind = .choice options weights escapes →
        t.TellsOptions g id options := fun hid hk => by
    have htell := (hcheck.2 _ (hmem hid)).2.1
    rwa [hk] at htell
  constructor
  · intro id positive operand hid hk
    have hkind := (hfits id (hmem hid)).1
    rw [hk] at hkind
    exact hkind
  · intro id hid hk
    have hkind := (hfits id (hmem hid)).1
    rw [hk] at hkind
    exact hkind
  · rintro id options weights escapes hid hk o ho o' ho' hne c ⟨rest, hstarts⟩ ⟨rest', hstarts'⟩
    obtain ⟨hdisjoint, -⟩ := ((htells hid hk).2 o ho o' ho').resolve_left hne
    exact hdisjoint c (hbegins (hoption hid hk ho) hstarts) (hbegins (hoption hid hk ho') hstarts')
  · intro id o tried later weights escapes hid hk hlater hempty
    have hlast : o ∈ (tried ++ o :: later).dropLast := by
      rw [List.dropLast_append_of_ne_nil (List.cons_ne_nil o later),
        List.dropLast_cons_of_ne_nil hlater]
      exact List.mem_append_right _ List.mem_cons_self
    have ho := hbegins (hoption hid hk (List.mem_append_right _ List.mem_cons_self)) hempty
    have hfilled := (htells hid hk).1 o hlast
    rw [hfilled] at ho
    cases ho
  · rintro id options weights escapes hid hk o ho hempty o' ho' hne c ⟨rest, hstarts⟩
    obtain ⟨-, hapart⟩ := ((htells hid hk).2 o ho o' ho').resolve_left hne
    exact not_followedBy hcheck (hapart (hbegins (hoption hid hk ho) hempty) c
      (hbegins (hoption hid hk ho') hstarts))
  · intro id hid hquantified hempty
    have hnone := (hcheck.2 id (hmem hid)).2.2.1.resolve_left hquantified
    have hsome : t.empty id = true := beginsAs hfits hempty rfl (hmem hid)
    cases hnone.symm.trans hsome
  · rintro id hid hdiffer c ⟨rest, hstarts⟩
    have hapart := (hcheck.2 id (hmem hid)).2.2.2.resolve_left hdiffer
    exact not_followedBy hcheck (hapart c (beginsAs hfits hstarts rfl (hmem hid)))

theorem rank_lt_of_descends {bound : Nat} {c : NodeId} {before after : List NodeId}
    (h : t.Descends g bound (before ++ c :: after))
    (hbefore : ∀ b ∈ before, t.emptyWhole g b = true) : t.rank c < bound := by
  induction before with
  | nil => exact h.1
  | cons b before ih =>
    obtain ⟨hb, hbefore⟩ := List.forall_mem_cons.1 hbefore
    exact ih (h.2 hb) hbefore

theorem not_loops (hg : g.IsLinked) (hproper : ∀ id, (g.graph.node id).repetition.IsProper)
    (hcheck : t.Check g root) (hranks : t.Ranks g) (id : NodeId) : ¬g.Loops root id := by
  have hfits : ∀ id ∈ t.nodes, t.Fits g id := fun id hid => (hcheck.2 id hid).1
  have hempty : ∀ {id}, id ∈ t.nodes → g.PossiblyEmpty id → t.emptyWhole g id = true :=
    fun hid hb => beginsAs hfits (hb.derives hg hproper) rfl hid
  have hdown : ∀ id c, id ∈ t.nodes → g.Asks id c → t.rank c < t.rank id := by
    intro id c hid hasks
    have hkind := (hfits id hid).1
    have hrank := hranks id hid
    cases hasks with
    | child hchild =>
      cases hchild with
      | group hk hbefore | rule hk hbefore =>
        rw [hk] at hkind hrank
        refine rank_lt_of_descends hrank fun b hb => hempty (hkind.1 ?_) (hbefore b hb)
        exact List.mem_append_left _ hb
      | choice hk ho =>
        rw [hk] at hrank
        exact hrank _ ho
      | lookAhead hk =>
        rw [hk] at hkind
        exact hkind.elim
    | reference hk hroot =>
      rw [hk] at hrank
      exact hrank _ hroot
  have hstep : ∀ {id c}, id ∈ t.nodes → g.Asks id c → c ∈ t.nodes := fun hid hasks =>
    mem_of_leads hfits hid (Grammar.isWalk_asks.leads hasks)
  rintro ⟨hid, hcycle⟩
  have hpath : ∀ c, Relation.TransGen g.Asks id c → c ∈ t.nodes ∧ t.rank c < t.rank id := by
    intro c hc
    have hmem := mem_of_reachable hfits hcheck.1 hid
    induction hc with
    | single hasks => exact ⟨hstep hmem hasks, hdown _ _ hmem hasks⟩
    | tail _ hasks ih =>
      obtain ⟨hin, hlt⟩ := ih
      exact ⟨hstep hin hasks, (hdown _ _ hin hasks).trans hlt⟩
  exact Nat.lt_irrefl _ (hpath id hcycle).2

end Forecast

end Ebnf
