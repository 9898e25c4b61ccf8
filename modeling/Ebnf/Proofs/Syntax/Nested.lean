import Ebnf.Proofs.Syntax.Parses

/-! What stands where in the trees of a source. Options are operands and no alternatives, a
look-ahead is about a leaf or a group, and what holds of each tree as it is put together from its
parts holds of all trees within one that is read. -/

namespace Ebnf

namespace Tree

def IsPrimary : Tree → Prop
  | leaf _ _ | group _ _ => True
  | choice _ _ | lookAhead _ _ _ => False

def IsOperand : Tree → Prop
  | leaf _ _ | group _ _ | lookAhead _ _ _ => True
  | choice _ _ => False

theorem IsPrimary.isOperand {t : Tree} (h : t.IsPrimary) : t.IsOperand := by
  cases t with
  | choice => exact h
  | leaf | group | lookAhead => trivial

def Everywhere (P : Tree → Prop) (t : Tree) : Prop := ∀ s, Within s t → P s

theorem everywhere_iff {P : Tree → Prop} {t : Tree} :
    t.Everywhere P ↔ P t ∧ ∀ p ∈ t.parts, p.Everywhere P := by
  constructor
  · intro h
    exact ⟨h t .refl, fun p hp s hs => h s (.part hp hs)⟩
  · rintro ⟨hself, hparts⟩ s hs
    cases hs with
    | refl => exact hself
    | part hp hs => exact hparts _ hp s hs

theorem Quantified.parts_eq {t t' : Tree} {q : Lexeme} (h : t.Quantified q t') :
    t'.parts = t.parts := by
  cases h <;> rfl

theorem Quantified.isPrimary {t t' : Tree} {q : Lexeme} (h : t.Quantified q t') :
    t'.IsPrimary := by
  cases h <;> trivial

end Tree

def Part.Admits : Part → Tree → Prop
  | bare, t | primary, t => t.IsPrimary
  | operand, t | barred _, t => t.IsOperand
  | item, _ | items, _ | body, _ => True

/-- What every tree has that is put together by the grammar of grammars. -/
structure Phrase.Keeps (P : Tree → Prop) : Prop where
  leaf {lexeme : Lexeme} {l : Leaf} {position : Position} : lexeme.Spells l →
    P (.leaf l (.bare position))
  group {items : List Tree} {position : Position} {label : Option String} :
    P (.group items ⟨position, .once, label⟩)
  quantified {t t' : Tree} {q : Lexeme} : P t → t.Quantified q t' → P t'
  choice {options : List Tree} {position : Position} : options ≠ [] →
    (∀ o ∈ options, o.IsOperand) → P (.choice options position)
  lookAhead {positive : Bool} {t : Tree} {position : Position} : t.IsPrimary →
    P (.lookAhead positive t position)

namespace Phrase

variable {part : Part} {ts : List Token} {trees : List Tree}

theorem admits (h : Phrase part ts trees) : ∀ t ∈ trees, part.Admits t := by
  have one : ∀ {part : Part} {t : Tree}, part.Admits t → ∀ u ∈ [t], part.Admits u := by
    intro part t ht u hu
    rwa [List.mem_singleton.1 hu]
  induction h with
  | leaf | group => exact one trivial
  | unquantified _ ih => exact ih
  | quantified _ hq => exact one hq.isPrimary
  | plain _ ih => exact fun t ht => (ih t ht).isOperand
  | lookAhead => exact one trivial
  | bar _ _ ih => exact ih
  | bars _ _ _ ih₁ ih₂ => exact List.forall_mem_append.2 ⟨ih₁, ih₂⟩
  | single | choice | none | more | whole | trailing => exact fun _ _ => trivial

theorem barred_ne_nil {position : Position} (h : Phrase (.barred position) ts trees) :
    trees ≠ [] := by
  cases h with
  | bar => exact List.cons_ne_nil _ _
  | bars => exact List.append_ne_nil_of_right_ne_nil _ (List.cons_ne_nil _ _)

/-- What is kept as trees are put together holds of all trees within them. -/
theorem everywhere {P : Tree → Prop} (hP : Keeps P) (h : Phrase part ts trees) :
    ∀ t ∈ trees, t.Everywhere P := by
  have one : ∀ {t : Tree}, P t → (∀ p ∈ t.parts, p.Everywhere P) → ∀ u ∈ [t], u.Everywhere P := by
    intro t hself hparts u hu
    rw [List.mem_singleton.1 hu]
    exact Tree.everywhere_iff.2 ⟨hself, hparts⟩
  induction h with
  | leaf hspells => exact one (hP.leaf hspells) nofun
  | group _ _ _ ih => exact one hP.group ih
  | @quantified _ _ t _ _ hq ih =>
    obtain ⟨hself, hparts⟩ := Tree.everywhere_iff.1 (ih t (List.mem_singleton_self t))
    exact one (hP.quantified hself hq) (hq.parts_eq ▸ hparts)
  | @lookAhead _ _ _ t _ hprimary ih =>
    exact one (hP.lookAhead (hprimary.admits t (List.mem_singleton_self t))) ih
  | bars _ _ _ ih₁ ih₂ | more _ _ ih₁ ih₂ => exact List.forall_mem_append.2 ⟨ih₁, ih₂⟩
  | choice hbarred hoperand ih₁ ih₂ =>
    have hoperands := List.forall_mem_append.2 ⟨hbarred.admits, hoperand.admits⟩
    refine one (hP.choice ?_ hoperands) (List.forall_mem_append.2 ⟨ih₁, ih₂⟩)
    exact List.append_ne_nil_of_right_ne_nil _ (List.cons_ne_nil _ _)
  | trailing _ hbarred ih₁ ih₂ =>
    refine List.forall_mem_append.2 ⟨ih₁, one ?_ ih₂⟩
    exact hP.choice hbarred.barred_ne_nil hbarred.admits
  | unquantified _ ih | plain _ ih | bar _ _ ih | single _ ih | whole _ ih => exact ih
  | none => exact nofun

end Phrase

theorem Definitions.everywhere {P : Tree → Prop} (hP : Phrase.Keeps P) {ts : List Token}
    {rules : List RuleTree} (h : Definitions ts rules) :
    ∀ r ∈ rules, ∀ t ∈ r.items, t.Everywhere P := by
  induction h with
  | none => exact nofun
  | more _ _ _ hitems ih =>
    refine List.forall_mem_append.2 ⟨ih, fun r hr => ?_⟩
    obtain rfl := List.mem_singleton.1 hr
    exact hitems.everywhere hP

namespace RuleTree

theorem exists_place {source : String} {rules : List RuleTree} (h : parse source = .ok rules) :
    ∃ place, (TokenStream.ofString source).ending = .ok place := by
  cases he : (TokenStream.ofString source).ending with
  | ok place => exact ⟨place, rfl⟩
  | error e =>
    cases hfold : (TokenStream.ofString source).tokens.foldlM Builder.step .idle <;>
      simp [parse, he, hfold, bind, Except.bind] at h

theorem everywhere_parse {P : Tree → Prop} (hP : Phrase.Keeps P) {source : String}
    {rules : List RuleTree} (h : parse source = .ok rules) :
    ∀ r ∈ rules, ∀ t ∈ r.items, t.Everywhere P := by
  obtain ⟨place, hplace⟩ := exists_place h
  exact ((parse_eq_ok_iff hplace rules).1 h).1.everywhere hP

theorem nodup_names_parse {source : String} {rules : List RuleTree}
    (h : parse source = .ok rules) : (rules.map name).Nodup := by
  obtain ⟨place, hplace⟩ := exists_place h
  exact ((parse_eq_ok_iff hplace rules).1 h).2

end RuleTree

namespace Tree

def HoldsOperands : Tree → Prop
  | choice options _ => ∀ o ∈ options, o.IsOperand
  | lookAhead _ operand _ => operand.IsPrimary
  | leaf _ _ | group _ _ => True

theorem keeps_holdsOperands : Phrase.Keeps HoldsOperands where
  leaf _ := trivial
  group := trivial
  quantified _ hq := by cases hq <;> trivial
  choice _ hoptions := hoptions
  lookAhead hoperand := hoperand

end Tree

end Ebnf
