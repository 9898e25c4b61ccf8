import Ebnf.Proofs.Syntax.Built

/-! What the builder holds is derived from the tokens it has taken. The invariant says so for each
open container: its items are phrases of the tokens since it was opened, and what was open before
accounts for the tokens before. -/

namespace Ebnf

def Frame.AtOperand : List Frame → Prop
  | ⟨.lookAhead _, _, _⟩ :: _ => False
  | _ => True

/-- The tokens that the items of a rule and its open containers account for. -/
inductive Context (items : List Tree) : List Frame → List Token → Prop
  | rule {ts : List Token} : Phrase .items ts items.reverse → Context items [] ts
  | group {fs : List Frame} {ts us : List Token} {opening : Token} {held : List Tree} :
      Context items fs ts → opening.lexeme = .opening → Phrase .items us held.reverse →
      Context items (⟨.group, opening.position, held⟩ :: fs) (ts ++ opening :: us)
  | choice {fs : List Frame} {ts us : List Token} {position : Position} {options : List Tree} :
      Context items fs ts → Frame.AtItem fs → Phrase (.barred position) us options.reverse →
      Context items (⟨.choice, position, options⟩ :: fs) (ts ++ us)
  | lookAhead {fs : List Frame} {ts : List Token} {mark : Token} {positive : Bool} :
      Context items fs ts → Frame.AtOperand fs → mark.lexeme = .lookAhead positive →
      Context items (⟨.lookAhead positive, mark.position, []⟩ :: fs) (ts ++ [mark])

inductive Pending.Spells : Pending → List Token → Prop
  | none : Spells .none []
  | name {word : String} {token : Token} : token.lexeme = .name word →
      Spells (.name word token.position) [token]
  | primary {ts : List Token} {t : Tree} : Phrase .bare ts [t] → Spells (.primary t) ts
  | operand {ts : List Token} {t : Tree} : Phrase .primary ts [t] → Spells (.operand t) ts

namespace OpenRule

def Settles (r : OpenRule) (ts : List Token) : Prop := Context r.items r.frames ts

/-- All of these tokens have been taken since the rule was opened. -/
def Reads (r : OpenRule) (ts : List Token) : Prop :=
  ∃ before us, ts = before ++ us ∧ r.Settles before ∧ r.pending.Spells us

variable {r r' : OpenRule} {ts us : List Token} {t : Tree}

theorem Settles.add (h : r.Settles ts) (hitems : r.TakesItems) (ht : Phrase .item us [t]) :
    (r.add t).Settles (ts ++ us) := by
  obtain ⟨name, position, items, frames, pending⟩ := r
  simp only [Settles, TakesItems] at h hitems ⊢
  cases h with
  | rule hphrase =>
    refine .rule ?_
    change Phrase .items (ts ++ us) (t :: items).reverse
    rw [List.reverse_cons]
    exact .more hphrase ht
  | group hcontext ho hphrase =>
    rw [List.append_assoc, List.cons_append]
    refine .group hcontext ho ?_
    rw [List.reverse_cons]
    exact .more hphrase ht
  | choice | lookAhead => exact hitems.elim

theorem Settles.wrap (h : r.Settles ts) (ht : Phrase .primary us [t]) :
    ∃ t' fs ts' us', OpenRule.wrap t r.frames = (t', fs) ∧ Frame.AtOperand fs ∧
      Context r.items fs ts' ∧ Phrase .operand us' [t'] ∧ ts ++ us = ts' ++ us' := by
  obtain ⟨name, position, items, frames, pending⟩ := r
  simp only [Settles] at h ⊢
  have hcontext := h
  cases h with
  | rule => exact ⟨t, _, _, us, rfl, trivial, hcontext, .plain ht, rfl⟩
  | group => exact ⟨t, _, _, us, rfl, trivial, hcontext, .plain ht, rfl⟩
  | choice => exact ⟨t, _, _, us, rfl, trivial, hcontext, .plain ht, rfl⟩
  | @lookAhead fs ts mark positive hrest hat hmark =>
    refine ⟨.lookAhead positive t mark.position, fs, ts, mark :: us, ?_, hat, hrest,
      .lookAhead hmark ht, by simp⟩
    -- no other look-ahead waits around this one
    rcases fs with - | ⟨⟨- | - | positive', place, held⟩, fs⟩
    · rfl
    · rfl
    · rfl
    · exact hat.elim

theorem Settles.attach_none (h : r.Settles ts) (ht : Phrase .primary us [t]) :
    (r.attach t none).Settles (ts ++ us) := by
  obtain ⟨t', fs, ts', us', hwrap, hat, hcontext, hoperand, heq⟩ := h.wrap ht
  rw [heq]
  simp only [attach, hwrap]
  cases hcontext with
  | rule hphrase =>
    exact Settles.add (r := { r with frames := [], pending := .none }) (.rule hphrase) trivial
      (.single hoperand)
  | group hrest ho hphrase =>
    exact Settles.add (r := { r with frames := _ :: _, pending := .none })
      (.group hrest ho hphrase) trivial (.single hoperand)
  | @choice fs ts₁ us₁ position options hrest hitems hphrase =>
    rw [List.append_assoc]
    have hitem : Phrase .item (us₁ ++ us') [.choice (t' :: options).reverse position] := by
      rw [List.reverse_cons]
      exact .choice hphrase hoperand
    exact Settles.add (r := { r with frames := fs, pending := .none }) hrest hitems hitem
  | lookAhead => exact hat.elim

theorem Settles.attach_some (h : r.Settles ts) (ht : Phrase .primary us [t]) {bar : Token}
    (hb : bar.lexeme = .bar) : (r.attach t (some bar.position)).Settles (ts ++ us ++ [bar]) := by
  obtain ⟨t', fs, ts', us', hwrap, hat, hcontext, hoperand, heq⟩ := h.wrap ht
  rw [heq, List.append_assoc]
  simp only [attach, hwrap]
  have hcontext' := hcontext
  cases hcontext with
  | rule hphrase => exact .choice hcontext' trivial (.bar hoperand hb)
  | group hrest ho hphrase => exact .choice hcontext' trivial (.bar hoperand hb)
  | @choice fs ts₁ us₁ position options hrest hitems hphrase =>
    rw [List.append_assoc]
    refine .choice hrest hitems ?_
    rw [List.reverse_cons]
    exact .bars hphrase hoperand hb
  | lookAhead => exact hat.elim

theorem Reads.pending (h : r.Reads ts) (hp : r.pending ≠ .none) :
    ∃ before us t, ts = before ++ us ∧ r.Settles before ∧ Phrase .primary us [t] ∧
      ∀ bar, r.settle bar = r.attach t bar := by
  obtain ⟨before, us, rfl, hsettles, hspells⟩ := h
  rcases hpending : r.pending with - | ⟨word, position⟩ | t | t <;> rw [hpending] at hspells
  · exact absurd hpending hp
  · cases hspells with
    | @name word token hl =>
      have hleaf : token.lexeme.Spells (.reference word) := by
        rw [hl]
        exact .reference
      exact ⟨before, _, _, rfl, hsettles, .unquantified (.leaf hleaf), by simp [settle, hpending]⟩
  · cases hspells with
    | primary ht =>
      exact ⟨before, _, t, rfl, hsettles, .unquantified ht, by simp [settle, hpending]⟩
  · cases hspells with
    | operand ht => exact ⟨before, _, t, rfl, hsettles, ht, by simp [settle, hpending]⟩

theorem Reads.settle_none (h : r.Reads ts) : (r.settle none).Settles ts := by
  by_cases hp : r.pending = .none
  · obtain ⟨before, us, rfl, hsettles, hspells⟩ := h
    rw [hp] at hspells
    cases hspells
    rwa [settle_of_none hp, List.append_nil]
  · obtain ⟨before, us, t, rfl, hsettles, ht, hattach⟩ := h.pending hp
    rw [hattach]
    exact hsettles.attach_none ht

theorem Reads.settle_some (h : r.Reads ts) (hp : r.pending ≠ .none) {bar : Token}
    (hb : bar.lexeme = .bar) : (r.settle (some bar.position)).Settles (ts ++ [bar]) := by
  obtain ⟨before, us, t, rfl, hsettles, ht, hattach⟩ := h.pending hp
  rw [hattach]
  exact hsettles.attach_some ht hb

theorem Settles.reads (h : r.Settles ts) (hp : r.pending = .none) : r.Reads ts :=
  ⟨ts, [], (List.append_nil ts).symm, h, by rw [hp]; exact .none⟩

theorem Settles.closeGroup (h : r.Settles ts) {label : Option String} {closing : Token}
    (hc : closing.lexeme = .closing label) (hok : r.closeGroup label closing.position = .ok r') :
    r'.Reads (ts ++ [closing]) := by
  obtain ⟨name, position, items, frames, pending⟩ := r
  have close : ∀ {fs : List Frame} {ts us : List Token} {opening : Token} {held : List Tree},
      Context items fs ts → opening.lexeme = .opening → Phrase .body us held →
        OpenRule.Reads ⟨name, position, items, fs, .primary (.group held
          ⟨opening.position, .once, label⟩)⟩ (ts ++ opening :: us ++ [closing]) := by
    intro fs ts us opening held hcontext ho hbody
    refine ⟨ts, opening :: (us ++ [closing]), by simp, hcontext, ?_⟩
    exact .primary (.group ho hbody hc)
  simp only [Settles] at h
  cases h with
  | rule => cases hok
  | group hrest ho hphrase =>
    cases hok
    exact close hrest ho (.whole hphrase)
  | @choice fs ts us place options hrest hitems hphrase =>
    cases hrest with
    | rule => cases hok
    | group hrest ho hheld =>
      cases hok
      rw [List.append_assoc _ _ us, List.cons_append]
      refine close hrest ho ?_
      rw [List.reverse_cons]
      exact .trailing hheld hphrase
    | choice | lookAhead => exact hitems.elim
  | lookAhead => cases hok

theorem Settles.begin (h : r.Settles ts) (hp : r.pending = .none) {token : Token}
    (hok : r.begin token = .ok r') : r'.Reads (ts ++ [token]) := by
  have hold : ∀ {p : Pending}, p.Spells [token] →
      ({ r with pending := p } : OpenRule).Reads (ts ++ [token]) :=
    fun hspells => ⟨ts, [token], rfl, h, hspells⟩
  have leaf : ∀ {l : Leaf}, token.lexeme.Spells l →
      (r.keep (.leaf l (.bare token.position))).Reads (ts ++ [token]) :=
    fun hspells => hold (.primary (.leaf hspells))
  have spells : ∀ {l : Lexeme} {leaf : Leaf}, token.lexeme = l → l.Spells leaf →
      token.lexeme.Spells leaf := by
    intro l leaf heq hspells
    rw [heq]
    exact hspells
  rw [OpenRule.begin] at hok
  cases hl : token.lexeme with
  | name word =>
    rw [hl] at hok
    cases hok
    exact hold (.name hl)
  | literal text =>
    rw [hl] at hok
    cases hok
    exact leaf (spells hl .literal)
  | cut =>
    rw [hl] at hok
    cases hok
    exact leaf (spells hl .cut)
  | charClass source =>
    simp only [hl] at hok
    cases hclass : CharClass.parse source with
    | error fault => simp [hclass] at hok
    | ok set =>
      rw [hclass] at hok
      cases hok
      exact leaf (spells hl (.charClass hclass))
  | opening =>
    rw [hl] at hok
    cases hok
    exact Settles.reads (.group h hl .none) hp
  | lookAhead positive =>
    simp only [hl] at hok
    split at hok
    · cases hok
    · next hwait =>
      cases hok
      refine Settles.reads (.lookAhead h ?_ hl) hp
      revert hwait
      unfold waitsForOperand Frame.AtOperand
      split <;> simp
  | closing label =>
    rw [hl] at hok
    exact h.closeGroup hl hok
  | bar | quantifier | define | finish =>
    rw [hl] at hok
    cases hok

theorem Reads.quantify (h : r.Reads ts) {q : Token} {mark : Mark} {label : Option String}
    (hq : q.lexeme = .quantifier mark label) {u u' : Tree} (hu : r.pending.Holds u)
    (hok : quantifyTree u mark label q.position = .ok u') :
    ({ r with pending := .operand u' } : OpenRule).Reads (ts ++ [q]) := by
  obtain ⟨before, us, rfl, hsettles, hspells⟩ := h
  have hbare : Phrase .bare us [u] := by
    generalize r.pending = p at hu hspells
    cases hu with
    | name =>
      cases hspells with
      | @name word token hl =>
        refine .leaf ?_
        rw [hl]
        exact .reference
    | primary =>
      cases hspells with
      | primary h => exact h
  have hquantified : u.Quantified q.lexeme u' := by
    rw [hq]
    cases hbare with
    | leaf =>
      obtain ⟨tag', htag, rfl⟩ := map_eq_ok.1 hok
      exact .leaf (quantify_eq_ok.1 htag)
    | group =>
      obtain ⟨tag', htag, rfl⟩ := map_eq_ok.1 hok
      exact .group (quantify_eq_ok.1 htag)
  exact ⟨before, us ++ [q], by simp, hsettles, .operand (.quantified hbare hquantified)⟩

theorem Reads.take (h : r.Reads ts) {token : Token} (hok : r.take token = .ok r') :
    r'.Reads (ts ++ [token]) := by
  by_cases hp : r.pending = .none
  · rw [OpenRule.take, hp] at hok
    rw [← settle_of_none hp none] at hok
    exact h.settle_none.begin (pending_settle r none) hok
  · cases hl : token.lexeme with
    | bar =>
      rw [take_bar hp hl] at hok
      cases hok
      exact (h.settle_some hp hl).reads (pending_settle r _)
    | quantifier mark label =>
      rcases hpending : r.pending with - | ⟨word, place⟩ | u | u
      · exact absurd hpending hp
      · simp only [OpenRule.take, hpending, hl] at hok
        obtain ⟨u', hu, rfl⟩ := map_eq_ok.1 hok
        exact h.quantify hl (by rw [hpending]; exact .name) hu
      · simp only [OpenRule.take, hpending, hl] at hok
        obtain ⟨u', hu, rfl⟩ := map_eq_ok.1 hok
        exact h.quantify hl (by rw [hpending]; exact .primary) hu
      · -- a primary takes one quantifier
        simp [OpenRule.take, hpending, hl, OpenRule.begin] at hok
    | _ =>
      rw [take_eq_begin r (by simp [hl]) (by rw [hl]; rfl)] at hok
      exact h.settle_none.begin (pending_settle r none) hok

end OpenRule

end Ebnf
