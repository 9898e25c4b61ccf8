import Ebnf.Tree.Builder

/-! The grammar of grammars. Phrases are derived from tokens, together with the trees they stand
for; a definition is a name, `::=` and items, and it ends where the next name with its `::=` starts.
Nothing here looks ahead or keeps anything open. -/

namespace Ebnf

inductive Lexeme.Spells : Lexeme → Leaf → Prop
  | literal {text : String} : Spells (.literal text) (.literal text)
  | charClass {source : String} {set : CharClass} : CharClass.parse source = .ok set →
      Spells (.charClass source) (.charClass set)
  | reference {word : String} : Spells (.name word) (.reference word)
  | cut : Spells .cut .cut

inductive Tag.Quantified (tag : Tag) : Lexeme → Tag → Prop
  | intro {mark : Mark} {label : Option String} {repetition : Repetition} :
      mark.repetition = .ok repetition → tag.label = none ∨ label = none →
      Quantified tag (.quantifier mark label) ⟨tag.position, repetition, tag.label.or label⟩

inductive Tree.Quantified : Tree → Lexeme → Tree → Prop
  | leaf {l : Leaf} {tag tag' : Tag} {q : Lexeme} : tag.Quantified q tag' →
      Quantified (.leaf l tag) q (.leaf l tag')
  | group {items : List Tree} {tag tag' : Tag} {q : Lexeme} : tag.Quantified q tag' →
      Quantified (.group items tag) q (.group items tag')

inductive Part where
  | bare
  | primary
  | operand
  /-- Operands with a bar behind each, the first of them at a place. -/
  | barred (position : Position)
  | item
  | items
  | body

inductive Phrase : Part → List Token → List Tree → Prop
  | leaf {token : Token} {l : Leaf} : token.lexeme.Spells l →
      Phrase .bare [token] [.leaf l (.bare token.position)]
  | group {opening closing : Token} {label : Option String} {ts : List Token}
      {items : List Tree} : opening.lexeme = .opening → Phrase .body ts items →
      closing.lexeme = .closing label →
      Phrase .bare (opening :: (ts ++ [closing])) [.group items ⟨opening.position, .once, label⟩]
  | unquantified {ts : List Token} {t : Tree} : Phrase .bare ts [t] → Phrase .primary ts [t]
  | quantified {ts : List Token} {q : Token} {t t' : Tree} : Phrase .bare ts [t] →
      t.Quantified q.lexeme t' → Phrase .primary (ts ++ [q]) [t']
  | plain {ts : List Token} {t : Tree} : Phrase .primary ts [t] → Phrase .operand ts [t]
  | lookAhead {mark : Token} {positive : Bool} {ts : List Token} {t : Tree} :
      mark.lexeme = .lookAhead positive → Phrase .primary ts [t] →
      Phrase .operand (mark :: ts) [.lookAhead positive t mark.position]
  | bar {bar : Token} {ts : List Token} {t : Tree} : Phrase .operand ts [t] → bar.lexeme = .bar →
      Phrase (.barred bar.position) (ts ++ [bar]) [t]
  | bars {bar : Token} {position : Position} {ts us : List Token} {options : List Tree}
      {t : Tree} : Phrase (.barred position) ts options → Phrase .operand us [t] →
      bar.lexeme = .bar → Phrase (.barred position) (ts ++ (us ++ [bar])) (options ++ [t])
  | single {ts : List Token} {t : Tree} : Phrase .operand ts [t] → Phrase .item ts [t]
  | choice {position : Position} {ts us : List Token} {options : List Tree} {t : Tree} :
      Phrase (.barred position) ts options → Phrase .operand us [t] →
      Phrase .item (ts ++ us) [.choice (options ++ [t]) position]
  | none : Phrase .items [] []
  | more {ts us : List Token} {items : List Tree} {t : Tree} : Phrase .items ts items →
      Phrase .item us [t] → Phrase .items (ts ++ us) (items ++ [t])
  | whole {ts : List Token} {items : List Tree} : Phrase .items ts items → Phrase .body ts items
  /-- A bar may stand directly before the closing parenthesis. -/
  | trailing {position : Position} {ts us : List Token} {items options : List Tree} :
      Phrase .items ts items → Phrase (.barred position) us options →
      Phrase .body (ts ++ us) (items ++ [.choice options position])

/-- The definitions of a grammar, each with its rule. -/
inductive Definitions : List Token → List RuleTree → Prop
  | none : Definitions [] []
  | more {name define : Token} {word : String} {ts us : List Token} {rules : List RuleTree}
      {items : List Tree} : Definitions ts rules → name.lexeme = .name word →
      define.lexeme = .define → Phrase .items us items →
      Definitions (ts ++ name :: define :: us) (rules ++ [⟨word, name.position, items⟩])

namespace Phrase

variable {part : Part} {ts : List Token} {trees : List Tree}

theorem lexeme_ne_define (h : Phrase part ts trees) : ∀ t ∈ ts, t.lexeme ≠ .define := by
  have one : ∀ {t : Token} {l : Lexeme}, t.lexeme = l → l ≠ .define →
      ∀ u ∈ [t], u.lexeme ≠ .define := by
    rintro t l rfl hne u hu
    obtain rfl := List.mem_singleton.1 hu
    exact hne
  induction h with
  | @leaf token l h =>
    refine one rfl ?_
    intro hdefine
    rw [hdefine] at h
    cases h
  | group ho _ hc ih =>
    refine List.forall_mem_cons.2 ⟨one ho nofun _ (List.mem_singleton_self _), ?_⟩
    exact List.forall_mem_append.2 ⟨ih, one hc nofun⟩
  | quantified _ hq ih =>
    refine List.forall_mem_append.2 ⟨ih, one rfl ?_⟩
    intro hdefine
    rw [hdefine] at hq
    cases hq with
    | leaf h => cases h
    | group h => cases h
  | lookAhead hm _ ih =>
    exact List.forall_mem_cons.2 ⟨one hm nofun _ (List.mem_singleton_self _), ih⟩
  | bar _ hb ih => exact List.forall_mem_append.2 ⟨ih, one hb nofun⟩
  | bars _ _ hb ih₁ ih₂ =>
    exact List.forall_mem_append.2 ⟨ih₁, List.forall_mem_append.2 ⟨ih₂, one hb nofun⟩⟩
  | unquantified _ ih | plain _ ih | single _ ih | whole _ ih => exact ih
  | choice _ _ ih₁ ih₂ | more _ _ ih₁ ih₂ | trailing _ _ ih₁ ih₂ =>
    exact List.forall_mem_append.2 ⟨ih₁, ih₂⟩
  | none => exact nofun

end Phrase

end Ebnf
