import Ebnf.Proofs.Syntax

/-! What the builder does with a phrase: it ends with the phrase's trees added to what was open
before. The last operand is still pending then, since only the next token tells what becomes of it,
so the trees are found in the settled rule. -/

namespace Ebnf

theorem map_eq_ok {ε α β : Type} {x : Except ε α} {f : α → β} {b : β} :
    x.map f = .ok b ↔ ∃ a, x = .ok a ∧ f a = b := by
  cases x <;> simp [Except.map]

theorem foldlM_append_of_ok {ε α β : Type} {f : β → α → Except ε β} {b b' : β} {as : List α}
    (h : as.foldlM f b = .ok b') (as' : List α) : (as ++ as').foldlM f b = as'.foldlM f b' := by
  rw [List.foldlM_append, h]
  rfl

/-- An operand that may still be quantified. -/
inductive Pending.Holds : Pending → Tree → Prop
  | name {word : String} {position : Position} :
      Holds (.name word position) (.leaf (.reference word) (.bare position))
  | primary {t : Tree} : Holds (.primary t) t

def Frame.AtItem : List Frame → Prop
  | ⟨.choice, _, _⟩ :: _ | ⟨.lookAhead _, _, _⟩ :: _ => False
  | _ => True

namespace OpenRule

def takeAll (r : OpenRule) (ts : List Token) : Except GrammarError OpenRule := ts.foldlM take r

theorem takeAll_cons (r : OpenRule) (t : Token) (ts : List Token) :
    r.takeAll (t :: ts) = r.take t >>= fun r' => r'.takeAll ts := rfl

theorem takeAll_append_of_ok {r r' : OpenRule} {ts : List Token} (h : r.takeAll ts = .ok r')
    (us : List Token) : r.takeAll (ts ++ us) = r'.takeAll us := foldlM_append_of_ok h us

theorem takeAll_cons_of_ok {r r' : OpenRule} {t : Token} (h : r.take t = .ok r')
    (ts : List Token) : r.takeAll (t :: ts) = r'.takeAll ts := by
  rw [takeAll_cons, h]
  rfl

@[simp] theorem takeAll_nil (r : OpenRule) : r.takeAll [] = .ok r := rfl

@[simp] theorem takeAll_singleton (r : OpenRule) (t : Token) : r.takeAll [t] = r.take t := by
  rw [takeAll_cons]
  cases r.take t <;> rfl

/-- Whether an item is added as it is: no alternative and no look-ahead is innermost. -/
def TakesItems (r : OpenRule) : Prop := Frame.AtItem r.frames

def addAll (r : OpenRule) (trees : List Tree) : OpenRule := trees.foldl add r

theorem addAll_concat (r : OpenRule) (trees : List Tree) (t : Tree) :
    r.addAll (trees ++ [t]) = (r.addAll trees).add t := by
  rw [addAll, List.foldl_append]
  rfl

@[simp] theorem pending_add (r : OpenRule) (t : Tree) : (r.add t).pending = r.pending := by
  unfold add
  split <;> rfl

@[simp] theorem pending_addAll (r : OpenRule) (trees : List Tree) :
    (r.addAll trees).pending = r.pending := by
  induction trees generalizing r with
  | nil => rfl
  | cons t trees ih => exact (ih (r.add t)).trans (r.pending_add t)

theorem TakesItems.frames {r : OpenRule} (h : r.TakesItems) :
    r.frames = [] ∨ ∃ position held fs, r.frames = ⟨.group, position, held⟩ :: fs := by
  unfold TakesItems at h
  rcases hf : r.frames with - | ⟨⟨- | - | positive, position, held⟩, fs⟩ <;> rw [hf] at h
  · exact .inl rfl
  · exact .inr ⟨position, held, fs, rfl⟩
  · exact h.elim
  · exact h.elim

theorem TakesItems.add {r : OpenRule} (h : r.TakesItems) (t : Tree) : (r.add t).TakesItems := by
  rcases h.frames with hf | ⟨position, held, fs, hf⟩ <;>
    simp [TakesItems, OpenRule.add, hf, Frame.AtItem]

theorem TakesItems.addAll {r : OpenRule} (h : r.TakesItems) (trees : List Tree) :
    (r.addAll trees).TakesItems := by
  induction trees generalizing r with
  | nil => exact h
  | cons t trees ih => exact ih (h.add t)

theorem addAll_group (r : OpenRule) (position : Position) (items trees : List Tree) :
    (r.openFrame .group position items).addAll trees =
      r.openFrame .group position (trees.reverse ++ items) := by
  induction trees generalizing items with
  | nil => rfl
  | cons t trees ih =>
    rw [List.reverse_cons, List.append_assoc]
    exact ih (t :: items)

theorem TakesItems.closeChoice {r : OpenRule} (h : r.TakesItems) : r.closeChoice = r := by
  rcases h.frames with hf | ⟨position, held, fs, hf⟩ <;> simp [OpenRule.closeChoice, hf]

theorem TakesItems.waitsForOperand {r : OpenRule} (h : r.TakesItems) :
    r.waitsForOperand = false := by
  rcases h.frames with hf | ⟨position, held, fs, hf⟩ <;> simp [OpenRule.waitsForOperand, hf]

theorem TakesItems.attach_none {r : OpenRule} (h : r.TakesItems) (hp : r.pending = .none)
    (t : Tree) : r.attach t none = r.add t := by
  rcases h.frames with hf | ⟨position, held, fs, hf⟩ <;>
    simp [attach, wrap, OpenRule.add, hf, ← hp]

theorem TakesItems.attach_some {r : OpenRule} (h : r.TakesItems) (hp : r.pending = .none)
    (t : Tree) (position : Position) :
    r.attach t (some position) = r.openFrame .choice position [t] := by
  rcases h.frames with hf | ⟨place, held, fs, hf⟩ <;> simp [attach, wrap, openFrame, hf, ← hp]

@[simp] theorem pending_closeChoice (r : OpenRule) : r.closeChoice.pending = r.pending := by
  unfold closeChoice
  split <;> simp

@[simp] theorem pending_attach (r : OpenRule) (t : Tree) (bar : Option Position) :
    (r.attach t bar).pending = .none := by
  simp only [attach]
  split <;> simp [openFrame]

theorem settle_of_none {r : OpenRule} (hp : r.pending = .none) (bar : Option Position) :
    r.settle bar = r := by
  rw [settle, hp]

@[simp] theorem pending_settle (r : OpenRule) (bar : Option Position) :
    (r.settle bar).pending = .none := by
  unfold settle
  split
  · next hp => exact hp
  all_goals exact pending_attach ..

theorem take_eq_begin (r : OpenRule) {t : Token} (hb : t.lexeme ≠ .bar)
    (hq : t.lexeme.isQuantifier = false) : r.take t = (r.settle none).begin t := by
  rcases hp : r.pending with - | ⟨word, position⟩ | u | u
  · rw [settle_of_none hp, take, hp]
  all_goals
    rw [take, hp]
    cases hl : t.lexeme with
    | bar => exact absurd hl hb
    | quantifier mark label => simp [hl, Lexeme.isQuantifier] at hq
    | _ => rfl

theorem take_settle (r : OpenRule) {t : Token} (hb : t.lexeme ≠ .bar)
    (hq : t.lexeme.isQuantifier = false) : (r.settle none).take t = r.take t := by
  rw [take_eq_begin _ hb hq, take_eq_begin r hb hq, settle_of_none (pending_settle r none)]

theorem take_bar {r : OpenRule} (hp : r.pending ≠ .none) {t : Token} (hb : t.lexeme = .bar) :
    r.take t = .ok (r.settle (some t.position)) := by
  rcases hp' : r.pending with - | ⟨word, position⟩ | u | u
  · exact absurd hp' hp
  all_goals rw [take, hp', hb]

theorem quantify_of_quantified {tag tag' : Tag} {mark : Mark} {label : Option String}
    (h : tag.Quantified (.quantifier mark label) tag') (position : Position) :
    quantify tag mark label position = .ok tag' := by
  obtain ⟨hr, hlabel⟩ := h
  unfold quantify
  rcases hlabel with hl | rfl
  · simp [hl, hr]
  · cases hl : tag.label <;> simp [hr]

theorem quantify_eq_ok {tag tag' : Tag} {mark : Mark} {label : Option String}
    {position : Position} : quantify tag mark label position = .ok tag' ↔
      tag.Quantified (.quantifier mark label) tag' := by
  refine ⟨fun h => ?_, fun h => quantify_of_quantified h position⟩
  have hlabel : tag.label = none ∨ label = none := by
    cases hl : tag.label <;> cases label <;> simp [quantify, hl] at h ⊢
  cases hr : mark.repetition with
  | error fault =>
    unfold quantify at h
    rcases hlabel with hl | rfl
    · simp [hl, hr] at h
    · cases hl : tag.label <;> simp [hl, hr] at h
  | ok repetition =>
    have hquantified : tag.Quantified (.quantifier mark label)
        ⟨tag.position, repetition, tag.label.or label⟩ := .intro hr hlabel
    rw [quantify_of_quantified hquantified] at h
    cases h
    exact hquantified

theorem quantifyTree_of_quantified {t t' : Tree} {mark : Mark} {label : Option String}
    (h : t.Quantified (.quantifier mark label) t') (position : Position) :
    quantifyTree t mark label position = .ok t' := by
  cases h with
  | leaf h | group h => simp [quantifyTree, quantify_of_quantified h, Except.map]

end OpenRule

def Lexeme.Starts (l : Lexeme) : Prop := l ≠ .bar ∧ l.isQuantifier = false

theorem Lexeme.Spells.starts {l : Lexeme} {leaf : Leaf} (h : l.Spells leaf) : l.Starts := by
  cases h <;> exact ⟨nofun, rfl⟩

/-- Whether phrases of this part always have a first token. -/
def Part.IsSolid : Part → Prop
  | .items | .body => False
  | _ => True

theorem Phrase.starts {part : Part} {ts : List Token} {trees : List Tree}
    (h : Phrase part ts trees) (hpart : part.IsSolid) :
    ∃ t rest, ts = t :: rest ∧ t.lexeme.Starts := by
  have before : ∀ {ts : List Token} (us : List Token),
      (∃ t rest, ts = t :: rest ∧ t.lexeme.Starts) →
        ∃ t rest, ts ++ us = t :: rest ∧ t.lexeme.Starts := by
    rintro _ us ⟨t, rest, rfl, hstarts⟩
    exact ⟨t, rest ++ us, rfl, hstarts⟩
  induction h with
  | leaf h => exact ⟨_, _, rfl, h.starts⟩
  | group h | lookAhead h => exact ⟨_, _, rfl, by rw [h]; exact ⟨nofun, rfl⟩⟩
  | unquantified _ ih | plain _ ih | single _ ih => exact ih trivial
  | quantified _ _ ih | bar _ _ ih | bars _ _ _ ih | choice _ _ ih => exact before _ (ih trivial)
  | none | more | whole | trailing => exact hpart.elim

namespace OpenRule

/-- The rule `r'` is `r` with an operand pending that has this tree. -/
def Pends (r r' : OpenRule) (t : Tree) : Prop :=
  r'.pending ≠ .none ∧ ∀ bar, r'.settle bar = r.attach t bar

theorem pends_of_holds {p : Pending} {t : Tree} (h : p.Holds t) (r : OpenRule) :
    r.Pends { r with pending := p } t := by
  cases h <;> exact ⟨nofun, fun bar => rfl⟩

/-- What the builder does with the tokens of a phrase when nothing is pending. -/
def Builds (r : OpenRule) (ts : List Token) (trees : List Tree) : Part → Prop
  | .bare => ∃ p, r.takeAll ts = .ok { r with pending := p } ∧ ∀ t ∈ trees, p.Holds t
  | .primary => ∃ r', r.takeAll ts = .ok r' ∧ ∀ t ∈ trees, r.Pends r' t
  | .operand => r.waitsForOperand = false →
      ∃ r', r.takeAll ts = .ok r' ∧ ∀ t ∈ trees, r.Pends r' t
  | .barred position => r.TakesItems →
      r.takeAll ts = .ok (r.openFrame .choice position trees.reverse)
  | .item => r.TakesItems → ∃ r', r.takeAll ts = .ok r' ∧ r'.settle none = r.addAll trees
  | .items => r.TakesItems → ∃ r', r.takeAll ts = .ok r' ∧ r'.settle none = r.addAll trees
  | .body => r.TakesItems →
      ∃ r', r.takeAll ts = .ok r' ∧ (r'.settle none).closeChoice = r.addAll trees

theorem takeAll_settle {r r' : OpenRule} {ts us : List Token} (h : r.takeAll ts = .ok r')
    (hstarts : ∃ t rest, us = t :: rest ∧ t.lexeme.Starts) :
    r.takeAll (ts ++ us) = (r'.settle none).takeAll us := by
  obtain ⟨t, rest, rfl, hb, hq⟩ := hstarts
  rw [takeAll_append_of_ok h, takeAll_cons, takeAll_cons, take_settle r' hb hq]

theorem begin_spells (r : OpenRule) {token : Token} {l : Leaf} (h : token.lexeme.Spells l) :
    ∃ p, r.begin token = .ok { r with pending := p } ∧
      p.Holds (.leaf l (.bare token.position)) := by
  obtain ⟨lexeme, position⟩ := token
  cases h with
  | charClass h =>
    refine ⟨_, ?_, .primary⟩
    simp [begin, h, keep]
  | reference => exact ⟨_, rfl, .name⟩
  | literal | cut => exact ⟨_, rfl, .primary⟩

theorem take_quantifier {r : OpenRule} {p : Pending} {q : Token} {t t' : Tree} (hp : p.Holds t)
    (hq : t.Quantified q.lexeme t') :
    ({ r with pending := p } : OpenRule).take q = .ok { r with pending := .operand t' } := by
  obtain ⟨lexeme, position⟩ := q
  obtain ⟨mark, label, rfl⟩ : ∃ mark label, lexeme = .quantifier mark label := by
    cases hq with
    | leaf h | group h =>
      cases h
      exact ⟨_, _, rfl⟩
  have htree := quantifyTree_of_quantified hq position
  cases hp <;> simp [take, htree, Except.map]

theorem Pends.lookAhead {r r' : OpenRule} {positive : Bool} {position : Position} {t : Tree}
    (h : (r.openFrame (.lookAhead positive) position []).Pends r' t) :
    r.Pends r' (.lookAhead positive t position) := ⟨h.1, h.2⟩

theorem begin_closing {r r' : OpenRule} {position : Position} {items : List Tree}
    (h : (r'.settle none).closeChoice = (r.openFrame .group position []).addAll items)
    {closing : Token} {label : Option String} (hc : closing.lexeme = .closing label) :
    r'.take closing =
      .ok { r with pending := .primary (.group items ⟨position, .once, label⟩) } := by
  rw [addAll_group, List.append_nil] at h
  rw [take_eq_begin r' (by rw [hc]; exact nofun) (by rw [hc]; rfl)]
  obtain ⟨lexeme, place⟩ := closing
  obtain rfl : lexeme = .closing label := hc
  simp only [begin, closeGroup, h, openFrame, keep, List.reverse_reverse]

theorem builds {part : Part} {ts : List Token} {trees : List Tree} (h : Phrase part ts trees)
    (r : OpenRule) (hp : r.pending = .none) : r.Builds ts trees part := by
  induction h generalizing r with
  | @leaf token l h =>
    obtain ⟨p, hbegin, hholds⟩ := r.begin_spells h
    refine ⟨p, ?_, List.forall_mem_singleton.2 hholds⟩
    rw [takeAll_singleton, take_eq_begin r h.starts.1 h.starts.2, settle_of_none hp, hbegin]
  | @group opening closing label ts items ho _ hc ih =>
    refine ⟨_, ?_, List.forall_mem_singleton.2 .primary⟩
    have hopen : r.take opening = .ok (r.openFrame .group opening.position []) := by
      rw [take_eq_begin r (by rw [ho]; exact nofun) (by rw [ho]; rfl), settle_of_none hp, begin, ho]
    -- the body is taken as if the group were a rule of its own
    obtain ⟨r', htake, hclosed⟩ := ih (r.openFrame .group opening.position []) hp trivial
    rw [takeAll_cons_of_ok hopen, takeAll_append_of_ok htake, takeAll_singleton]
    exact begin_closing hclosed hc
  | unquantified _ ih =>
    obtain ⟨p, htake, hholds⟩ := ih r hp
    exact ⟨_, htake, fun t ht => pends_of_holds (hholds t ht) r⟩
  | quantified _ hq ih =>
    obtain ⟨p, htake, hholds⟩ := ih r hp
    refine ⟨{ r with pending := .operand _ }, ?_, List.forall_mem_singleton.2 ⟨nofun, fun _ => rfl⟩⟩
    rw [takeAll_append_of_ok htake, takeAll_singleton]
    exact take_quantifier (hholds _ (List.mem_singleton_self _)) hq
  | plain _ ih => exact fun _ => ih r hp
  | @lookAhead mark positive ts t hm _ ih =>
    intro hwait
    have hopen : r.take mark = .ok (r.openFrame (.lookAhead positive) mark.position []) := by
      rw [take_eq_begin r (by rw [hm]; exact nofun) (by rw [hm]; rfl), settle_of_none hp]
      simp [begin, hm, hwait]
    obtain ⟨r', htake, hpends⟩ := ih (r.openFrame (.lookAhead positive) mark.position []) hp
    refine ⟨r', by rw [takeAll_cons_of_ok hopen, htake], List.forall_mem_singleton.2 ?_⟩
    exact (hpends t (List.mem_singleton_self t)).lookAhead
  | @bar bar ts t _ hb ih =>
    intro hitems
    obtain ⟨r', htake, hpends⟩ := ih r hp hitems.waitsForOperand
    obtain ⟨hpending, hsettle⟩ := hpends t (List.mem_singleton_self t)
    rw [takeAll_append_of_ok htake, takeAll_singleton, take_bar hpending hb, hsettle,
      hitems.attach_some hp]
    rfl
  | @bars bar position ts us options t _ _ hb ih₁ ih₂ =>
    intro hitems
    have hopen := ih₁ r hp hitems
    obtain ⟨r', htake, hpends⟩ := ih₂ (r.openFrame .choice position options.reverse) hp rfl
    obtain ⟨hpending, hsettle⟩ := hpends t (List.mem_singleton_self t)
    rw [takeAll_append_of_ok hopen, takeAll_append_of_ok htake, takeAll_singleton,
      take_bar hpending hb, hsettle, List.reverse_append]
    obtain ⟨name, place, items, frames, pending⟩ := r
    obtain rfl : pending = .none := hp
    rfl
  | single _ ih =>
    intro hitems
    obtain ⟨r', htake, hpends⟩ := ih r hp hitems.waitsForOperand
    refine ⟨r', htake, ?_⟩
    rw [(hpends _ (List.mem_singleton_self _)).2, hitems.attach_none hp]
    rfl
  | @choice position ts us options t _ _ ih₁ ih₂ =>
    intro hitems
    have hopen := ih₁ r hp hitems
    obtain ⟨r', htake, hpends⟩ := ih₂ (r.openFrame .choice position options.reverse) hp rfl
    refine ⟨r', by rw [takeAll_append_of_ok hopen, htake], ?_⟩
    rw [(hpends t (List.mem_singleton_self t)).2]
    obtain ⟨name, place, items, frames, pending⟩ := r
    obtain rfl : pending = .none := hp
    simp [attach, wrap, openFrame, OpenRule.add, OpenRule.closeChoice, addAll]
  | none => exact fun _ => ⟨r, rfl, settle_of_none hp _⟩
  | more _ hitem ih₁ ih₂ =>
    intro hitems
    obtain ⟨r₁, htake₁, hsettle₁⟩ := ih₁ r hp hitems
    obtain ⟨r₂, htake₂, hsettle₂⟩ := ih₂ (r₁.settle none) (pending_settle r₁ none)
      (by rw [hsettle₁]; exact hitems.addAll _)
    refine ⟨r₂, by rw [takeAll_settle htake₁ (hitem.starts trivial), htake₂], ?_⟩
    rw [hsettle₂, hsettle₁, addAll_concat]
    rfl
  | whole _ ih =>
    intro hitems
    obtain ⟨r', htake, hsettle⟩ := ih r hp hitems
    exact ⟨r', htake, by rw [hsettle, (hitems.addAll _).closeChoice]⟩
  | @trailing position ts us items options _ hoptions ih₁ ih₂ =>
    intro hitems
    obtain ⟨r₁, htake₁, hsettle₁⟩ := ih₁ r hp hitems
    have htake₂ := ih₂ (r₁.settle none) (pending_settle r₁ none)
      (by rw [hsettle₁]; exact hitems.addAll _)
    refine ⟨_, by rw [takeAll_settle htake₁ (hoptions.starts trivial), htake₂], ?_⟩
    have hnone : ((r₁.settle none).openFrame .choice position options.reverse).pending = .none :=
      pending_settle r₁ none
    rw [settle_of_none hnone, hsettle₁, addAll_concat]
    simp only [openFrame, OpenRule.closeChoice, List.reverse_reverse]

end OpenRule

end Ebnf
