import Ebnf.Proofs.Arena.Stored
import Ebnf.Proofs.Syntax.Turns

/-! Every turn on the graph does what the turn on the stack of containers does: it fails with the
same error, or the graph is again that of the containers. An element that has been made but not
added stands behind them, with some parent or none. -/

namespace Ebnf

/-- Two results that are the same error, or values that are related. -/
inductive AgreeOn {α β : Type} (R : α → β → Prop) :
    Except ParserError α → Except ParserError β → Prop
  | error (e : ParserError) : AgreeOn R (.error e) (.error e)
  | ok {a : α} {b : β} : R a b → AgreeOn R (.ok a) (.ok b)

theorem AgreeOn.bind {α β γ δ : Type} {R : α → β → Prop} {S : γ → δ → Prop}
    {x : Except ParserError α} {y : Except ParserError β} {f : α → Except ParserError γ}
    {g : β → Except ParserError δ} (h : AgreeOn R x y) (hf : ∀ a b, R a b → AgreeOn S (f a) (g b)) :
    AgreeOn S (x >>= f) (y >>= g) := by
  cases h with
  | error e => exact .error e
  | ok hab => exact hf _ _ hab

theorem AgreeOn.refl {α : Type} (x : Except ParserError α) : AgreeOn (· = ·) x x := by
  cases x with
  | error e => exact .error e
  | ok a => exact .ok rfl

namespace Parser

def quantified (t : Tree) (l : Lexer) : Except ParserError (Tree × Lexer) := do
  let (next, l) ← look l
  match next.lexeme with
  | .quantifier mark label =>
    let (_, l) ← take l
    let t ← (OpenRule.quantifyTree t mark label next.position).mapError .grammar
    return (t, l)
  | _ => return (t, l)

theorem qualify_eq (t : Tree) (stack : List Container) (l : Lexer) :
    qualify t stack l = quantified t l >>= fun (t, l) => attach t stack l := by
  unfold qualify quantified
  cases look l with
  | error e => rfl
  | ok a =>
    obtain ⟨next, l⟩ := a
    simp only [bind, Except.bind]
    cases next.lexeme with
    | quantifier mark label =>
      cases take l with
      | error e => rfl
      | ok a =>
        simp only
        cases (OpenRule.quantifyTree t mark label next.position).mapError ParserError.grammar <;>
          rfl
    | _ => rfl

/-- The label of an element that has one label, or none, and may get another. -/
def relabel : Option String → Option String → Position → Except ParserError (Option String)
  | some first, some second, position => .error (fault position (.secondLabel first second))
  | first, second, _ => .ok (first.or second)

theorem mapError_quantify (f : Tag → Tree) (tag : Tag) (mark : Mark) (label : Option String)
    (position : Position) :
    ((OpenRule.quantify tag mark label position).map f).mapError ParserError.grammar =
      relabel tag.label label position >>= fun first =>
        match mark.repetition with
        | .ok r => .ok (f ⟨tag.position, r, first⟩)
        | .error e => .error (fault position (.repetition e)) := by
  obtain ⟨place, repetition, own⟩ := tag
  unfold OpenRule.quantify
  rcases own with - | first <;> rcases label with - | second <;>
    first | rfl | (cases mark.repetition <;> rfl)

theorem finish_cons {l : Lexer} {done : List RuleTree} {c : Container} {cs : List Container}
    (h : cs ≠ []) : finish ⟨l, done, c :: cs⟩ = look l >>= fun (next, _) =>
      .error (fault next.position (.unclosedRule (ruleName (c :: cs)))) := by
  obtain ⟨d, ds, rfl⟩ := List.exists_cons_of_ne_nil h
  obtain ⟨kind, place, items⟩ := c
  cases kind <;> rfl

end Parser

namespace GraphParser

open Container (Nested)
open Ebnf.Parser (fault look take)

def start (done : List RuleTree) : Nat := RuleTree.sizes done.reverse

def next (done : List RuleTree) (stack : List Container) : Nat := start done + Container.sizes stack

def nodes (done : List RuleTree) (inner : Option NodeId) (stack : List Container) : List Node :=
  RuleTree.layoutAll unlinked 0 done.reverse ++ Container.layoutAll (start done) inner stack

/-- The graph of finished rules and open containers, the innermost of which may have one more child,
with more nodes behind it. -/
def stored (l : Lexer) (done : List RuleTree) (inner : Option NodeId) (stack : List Container)
    (extra : List Node) : GraphParser :=
  ⟨l, .ofNodes (nodes done inner stack ++ extra),
    RuleTree.index 0 done.reverse ++ [(Parser.ruleName stack, start done)], some (start done),
    Container.current (start done) stack⟩

def holding (l : Lexer) (done : List RuleTree) (stack : List Container) (t : Tree)
    (parent : Option NodeId) : GraphParser :=
  stored l done none stack (t.layout unlinked parent (next done stack))

variable {l : Lexer} {done : List RuleTree} {stack cs : List Container} {c : Container} {t : Tree}
  {extra : List Node} {q inner : Option NodeId} {token : Token}
  {position : Position} {items : List Tree}

theorem length_nodes : (nodes done inner stack).length = next done stack := by
  rw [nodes, List.length_append, RuleTree.length_layoutAll, Container.length_layoutAll]
  rfl

theorem next_cons : next done (c :: cs) = next done cs + c.size := by
  rw [next, next, Container.sizes, Nat.add_assoc]

theorem nodes_cons : nodes done inner (c :: cs) =
    nodes done (Container.childBelow (start done) c cs) cs ++
      c.layout (Container.current (start done) cs) (next done cs) inner := by
  rw [nodes, nodes, Container.layoutAll, ← List.append_assoc]
  rfl

theorem node_current : (stored l done inner (c :: cs) extra).graph.node (c.top (next done cs)) =
    c.head (Container.current (start done) cs) (next done cs) inner := by
  have hlength : (nodes done (Container.childBelow (start done) c cs) cs ++
      Tree.layoutAll unlinked (c.top (next done cs)) (next done cs) c.lead).length =
        c.top (next done cs) := by
    rw [List.length_append, length_nodes, Tree.length_layoutAll, Container.top]
  have hnode := @Graph.node_ofNodes _ (Tree.layoutAll unlinked (c.top (next done cs))
    (c.top (next done cs) + 1) c.rest ++ extra)
    (c.head (Container.current (start done) cs) (next done cs) inner) _ hlength
  rw [stored, nodes_cons, Container.layout]
  simpa using hnode

theorem openKind_stored : (stored l done inner (c :: cs) extra).openKind = c.kind.openKind := by
  have hcurrent : (stored l done inner (c :: cs) extra).current = some (c.top (next done cs)) := rfl
  rw [openKind, hcurrent]
  dsimp only
  rw [node_current, Container.head, ContainerKind.openKind_node]

theorem ruleName_cons (h : cs ≠ []) : Parser.ruleName (c :: cs) = Parser.ruleName cs := by
  obtain ⟨d, ds, rfl⟩ := List.exists_cons_of_ne_nil h
  rw [Parser.ruleName, Parser.ruleName, List.getLast?_cons_cons]

theorem ruleName_add : Parser.ruleName (c.add t :: cs) = Parser.ruleName (c :: cs) := by
  cases cs with
  | nil =>
    obtain ⟨kind, position, items⟩ := c
    cases kind <;> rfl
  | cons d ds => rw [ruleName_cons (List.cons_ne_nil _ _), ruleName_cons (List.cons_ne_nil _ _)]

def Represents (done : List RuleTree) (s : List Container × Lexer) (p : GraphParser) : Prop :=
  Nested s.1 ∧ p = stored s.2 done none s.1 []

theorem adopt_holding (h : c.HasRoom) :
    (holding l done (c :: cs) t q).adopt (c.top (next done cs)) (t.top (next done (c :: cs))) =
      .ok (stored l done (some (t.top (next done (c :: cs)))) (c :: cs)
        (t.layout unlinked (some (c.top (next done cs))) (next done (c :: cs)))) := by
  have hid : next done cs + c.size + (Tree.layoutAll unlinked (t.top (next done (c :: cs)))
      (next done (c :: cs)) t.lead).length = t.top (next done (c :: cs)) := by
    rw [Tree.length_layoutAll, Tree.top_eq, next_cons]
  have hadopt := @Container.adopt?_layout c (Container.current (start done) cs) _ _ _
    (Tree.layoutAll unlinked (t.top (next done (c :: cs))) (t.top (next done (c :: cs)) + 1) t.rest)
    (t.head unlinked q (next done (c :: cs))) _ h
    (@length_nodes done cs (Container.childBelow (start done) c cs)) hid
  rw [← Tree.head_eq] at hadopt
  simp only [adopt, holding, stored, nodes_cons, Tree.layout_eq, List.append_assoc, hadopt]

theorem stored_add (h : c.kind = .choice → c.items ≠ []) :
    stored l done (some (t.top (next done (c :: cs)))) (c :: cs)
        (t.layout unlinked (some (c.top (next done cs))) (next done (c :: cs))) =
      stored l done none (c.add t :: cs) [] := by
  have hbelow : Container.childBelow (start done) (c.add t) cs =
      Container.childBelow (start done) c cs := by
    simp only [Container.childBelow, Container.current, Container.top_add h]
    rfl
  simp only [stored, nodes_cons, hbelow, ruleName_add, Container.current, Container.top_add h,
    Container.layout_add h, next_cons, List.append_nil, List.append_assoc]

theorem stored_choice (h : Nested (⟨.choice, position, items⟩ :: c :: cs)) :
    { stored l done none (⟨.choice, position, items⟩ :: c :: cs) [] with
      current := Container.current (start done) (c :: cs) } =
      stored l done none (c.add (.choice items.reverse position) :: cs) [] := by
  have htop : (Tree.choice items.reverse position).top (next done (c :: cs)) =
      (Container.mk .choice position items).top (next done (c :: cs)) := by
    rw [Tree.top_eq, Container.top]
    rfl
  have hchild : Container.childBelow (start done) (Container.mk .choice position items) (c :: cs) =
      some ((Container.mk .choice position items).top (next done (c :: cs))) := rfl
  rw [← stored_add h.tail.hasRoom.choice, htop]
  simp only [stored, nodes_cons, hchild, Container.layout_choice, List.append_assoc,
    List.append_nil, ruleName_cons (List.cons_ne_nil c cs)]
  rfl

theorem parent_current : ((stored l done inner (c :: cs) extra).graph.node
    (c.top (next done cs))).parent = Container.current (start done) cs := by
  rw [node_current, Container.head]

theorem closeChoice_choice (h : Nested (⟨.choice, position, items⟩ :: c :: cs)) :
    closeChoice (stored l done none (⟨.choice, position, items⟩ :: c :: cs) []) =
      stored l done none (c.add (.choice items.reverse position) :: cs) [] := by
  rw [← stored_choice h, closeChoice, openKind_stored]
  refine (if_pos rfl).trans ?_
  rw [← parent_current]
  rfl

theorem closeChoice_of_ne_choice (h : c.kind ≠ .choice) :
    closeChoice (stored l done none (c :: cs) []) = stored l done none (c :: cs) [] := by
  rw [closeChoice, openKind_stored,
    if_neg fun hchoice => h (ContainerKind.openKind_eq_choice.1 hchoice)]

theorem represents_closeChoice (h : Nested stack) :
    Represents done (Container.closeChoice stack, l)
      (closeChoice (stored l done none stack [])) := by
  refine ⟨h.closeChoice, ?_⟩
  cases h with
  | choice _ hne hlook hitems h => exact closeChoice_choice (.choice _ hne hlook hitems h)
  | rule | group | lookAhead => exact closeChoice_of_ne_choice ContainerKind.noConfusion

theorem endOption_agrees (h : Nested (c :: cs)) : AgreeOn (Represents done)
    (if c.kind = .choice then do
      let (next, l) ← look l
      if next.lexeme = .bar then do
        let (_, l) ← take l
        pure (c :: cs, l)
      else pure (Container.closeChoice (c :: cs), l)
    else pure (c :: cs, l))
    ((stored l done none (c :: cs) []).endOption (c.top (next done cs))) := by
  rw [endOption, openKind_stored]
  by_cases hchoice : c.kind = .choice
  · rw [if_pos hchoice, if_pos (ContainerKind.openKind_eq_choice.2 hchoice)]
    refine (AgreeOn.refl (look l)).bind fun a b hab => ?_
    obtain ⟨token, l⟩ := a
    subst hab
    dsimp only
    split
    · refine (AgreeOn.refl (take l)).bind fun a b hab => ?_
      subst hab
      exact .ok ⟨h, rfl⟩
    · refine .ok ⟨h.closeChoice, ?_⟩
      cases h with
      | choice position hne hlook hitems h =>
        have hclosed := @stored_choice l done _ _ _ _ (.choice position hne hlook hitems h)
        rw [← parent_current] at hclosed
        exact hclosed
      | rule | group | lookAhead => cases hchoice
  · rw [if_neg hchoice, if_neg fun hc => hchoice (ContainerKind.openKind_eq_choice.1 hc)]
    exact .ok ⟨h, rfl⟩

/-- The alternative that a bar opens becomes a child of the container, and the element before the
bar its first option. -/
theorem openChoice_agrees (h : Nested (c :: cs)) (position : Position) :
    ∃ p, (holding l done (c :: cs) t q).openChoice (c.top (next done cs)) position = .ok p ∧
      p.current = some (next done (c :: cs) + t.size) ∧
      p.adopt (next done (c :: cs) + t.size) (t.top (next done (c :: cs))) =
        .ok (stored l done none (⟨.choice, position, [t]⟩ :: c :: cs) []) := by
  have hnumber : (nodes done none (c :: cs) ++ t.layout unlinked q (next done (c :: cs))).length =
      next done (c :: cs) + t.size := by
    rw [List.length_append, length_nodes, Tree.length_layout]
  have hid : next done cs + c.size + (t.layout unlinked q (next done (c :: cs))).length =
      next done (c :: cs) + t.size := by
    rw [Tree.length_layout, next_cons]
  have hadopt := @Container.adopt?_layout c (Container.current (start done) cs) _ _ _ []
    (Node.ofKind (.choice [] (.uniform 0) (.uniform 0)) position) _ h.hasRoom
    (@length_nodes done cs (Container.childBelow (start done) c cs)) hid
  refine ⟨{ holding l done (c :: cs) t q with
    graph := .ofNodes (nodes done (some (next done (c :: cs) + t.size)) (c :: cs) ++
      (t.layout unlinked q (next done (c :: cs)) ++
        [{ Node.ofKind (.choice [] (.uniform 0) (.uniform 0)) position with
          parent := some (c.top (next done cs)) }]))
    current := some (next done (c :: cs) + t.size) }, ?_, rfl, ?_⟩
  · simp only [openChoice, holding, stored, Graph.add_ofNodes, hnumber, adopt]
    simp only [nodes_cons, List.append_assoc, hadopt]
    rfl
  · have hoption := @Container.adopt?_option t _ _
      { Node.ofKind (.choice [] (.uniform 0) (.uniform 0)) position with
        parent := some (c.top (next done cs)) } _ q
      (@length_nodes done (c :: cs) (some (next done (c :: cs) + t.size))) rfl
    rw [adopt, hoption, stored, @nodes_cons _ _ (Container.mk .choice position [t]),
      Container.layout_option, List.append_nil]
    rfl

theorem hold_agrees (h : Nested (c :: cs)) (hlook : ∀ positive, c.kind ≠ .lookAhead positive) :
    AgreeOn (Represents done) (Parser.hold t c cs l)
      ((holding l done (c :: cs) t q).hold (c.top (next done cs))
        (t.top (next done (c :: cs)))) := by
  refine (AgreeOn.refl (look l)).bind fun a b hab => ?_
  obtain ⟨token, l'⟩ := a
  subst hab
  have hkind : (holding l done (c :: cs) t q).openKind = c.kind.openKind := openKind_stored
  have hiff : (holding l done (c :: cs) t q).openKind ≠ .choice ∧ token.lexeme = .bar ↔
      c.kind ≠ .choice ∧ token.lexeme = .bar := by
    rw [hkind, ne_eq, ContainerKind.openKind_eq_choice]
  dsimp only
  by_cases hopen : c.kind ≠ .choice ∧ token.lexeme = .bar
  · obtain ⟨p, hp, hcurrent, hadopt⟩ := @openChoice_agrees l' done cs c t q h token.position
    have hright :
        (holding l' done (c :: cs) t q).openChoice (c.top (next done cs)) token.position >>=
        (fun p => p.adopt (p.current.getD (c.top (next done cs))) (t.top (next done (c :: cs))) >>=
          fun p' => p'.endOption (p.current.getD (c.top (next done cs)))) =
        endOption (stored l' done none (⟨.choice, token.position, [t]⟩ :: c :: cs) [])
          (next done (c :: cs) + t.size) := by
      rw [hp]
      change p.adopt (p.current.getD _) _ >>= _ = _
      rw [hcurrent, Option.getD_some, hadopt]
      rfl
    rw [if_pos hopen, if_pos (hiff.2 hopen), Container.adopt_of_ne_lookAhead hlook]
    refine hright ▸ endOption_agrees (.choice _ hopen.1 hlook (List.cons_ne_nil _ _) h)
  · have hright : (holding l' done (c :: cs) t q).adopt (c.top (next done cs))
          (t.top (next done (c :: cs))) >>= (fun p => p.endOption (c.top (next done cs))) =
        (stored l' done none (c.add t :: cs) []).endOption ((c.add t).top (next done cs)) := by
      rw [adopt_holding h.hasRoom, stored_add h.hasRoom.choice, Container.top_add h.hasRoom.choice]
      rfl
    rw [if_neg hopen, if_neg (mt hiff.1 hopen), pure_bind, Container.adopt_of_ne_lookAhead hlook]
    exact hright ▸ endOption_agrees (h.add hlook)

theorem attach_lookAhead {fuel : Nat} {positive : Bool} (hk : c.kind = .lookAhead positive)
    (hi : c.items = []) (hcs : cs ≠ []) :
    (holding l done (c :: cs) t q).attach (fuel + 1) (t.top (next done (c :: cs))) =
      (holding l done cs (.lookAhead positive t c.position)
        (Container.current (start done) cs)).attach fuel (next done cs) := by
  have hroom : c.HasRoom := ⟨fun h => absurd (hk.symm.trans h) nofun, fun _ => hi⟩
  have hkind : (holding l done (c :: cs) t q).openKind = .lookAhead := by
    rw [holding, openKind_stored, hk, ContainerKind.openKind]
  have hcurrent : (holding l done (c :: cs) t q).current = some (c.top (next done cs)) := rfl
  rw [attach, hcurrent]
  dsimp only
  rw [if_pos hkind, adopt_holding hroom]
  dsimp only
  rw [parent_current]
  -- the operand's nodes and the look-ahead's own are those of one tree
  obtain ⟨kind, position, items⟩ := c
  obtain rfl : kind = .lookAhead positive := hk
  obtain rfl : items = [] := hi
  have hchild : Container.childBelow (start done) (Container.mk (.lookAhead positive) position [])
      cs = none := if_neg ContainerKind.noConfusion
  rw [holding, stored, stored, nodes_cons, hchild, List.append_assoc, ruleName_cons hcs,
    ← Container.layout_lookAhead]
  rfl

theorem attach_of_ne_lookAhead {fuel : Nat} (h : Nested (c :: cs))
    (hlook : ∀ positive, c.kind ≠ .lookAhead positive) :
    ∃ y, (holding l done (c :: cs) t q).attach (fuel + 1) (t.top (next done (c :: cs))) = some y ∧
      AgreeOn (Represents done) (Parser.attach t (c :: cs) l) y := by
  have hkind : (holding l done (c :: cs) t q).openKind ≠ .lookAhead := by
    rw [holding, openKind_stored]
    cases hc : c.kind with
    | lookAhead positive => exact absurd hc (hlook positive)
    | _ => exact OpenKind.noConfusion
  have hattach : Parser.attach t (c :: cs) l = Parser.hold t c cs l := by
    obtain ⟨kind, position, items⟩ := c
    cases kind with
    | lookAhead positive => exact absurd rfl (hlook positive)
    | _ => rfl
  exact ⟨_, if_neg hkind, hattach ▸ hold_agrees h hlook⟩

theorem attach_agrees {fuel : Nat} (h : Nested stack) (hfuel : stack.length < fuel) :
    ∃ y, (holding l done stack t q).attach fuel (t.top (next done stack)) = some y ∧
      AgreeOn (Represents done) (Parser.attach t stack l) y := by
  cases fuel with
  | zero => exact absurd hfuel (Nat.not_lt_zero _)
  | succ fuel =>
    induction h generalizing t q fuel with
    | rule name position items => exact attach_of_ne_lookAhead (.rule ..) nofun
    | group position items h => exact attach_of_ne_lookAhead (.group position items h) nofun
    | choice position hne hlook hitems h =>
      exact attach_of_ne_lookAhead (.choice position hne hlook hitems h) nofun
    | @lookAhead cs positive position h ih =>
      have hless : cs.length < fuel := Nat.lt_of_succ_lt_succ hfuel
      obtain ⟨fuel, rfl⟩ := Nat.exists_eq_add_one_of_ne_zero (Nat.ne_zero_of_lt hless)
      obtain ⟨y, hy, hagrees⟩ := @ih (.lookAhead positive t position)
        (Container.current (start done) cs) fuel hless
      exact ⟨y, (attach_lookAhead rfl rfl h.ne_nil).trans hy, hagrees⟩

theorem openContainer_stored {k : ContainerKind} (hk : k ≠ .choice) (hlabel : k.label = none)
    (h : stack ≠ []) :
    (stored l done none stack []).openContainer (Node.ofKind (k.node []) position) =
      stored l done none (⟨k, position, []⟩ :: stack) [] := by
  have hchild : Container.childBelow (start done) ⟨k, position, []⟩ stack = none := if_neg hk
  have hlead : (Container.mk k position []).lead = [] := if_neg hk
  have hrest : (Container.mk k position []).rest = [] := if_neg hk
  have hnodes : (Container.mk k position []).layout (Container.current (start done) stack)
      (next done stack) none = [{ Node.ofKind (k.node []) position with
        parent := Container.current (start done) stack }] := by
    simp only [Container.layout, Container.head, Container.kids, hlead, hrest, hlabel]
    rfl
  have htop : (Container.mk k position []).top (next done stack) = next done stack := by
    rw [Container.top, hlead]
    rfl
  simp only [openContainer, stored, nodes_cons, hchild, hnodes, Graph.add_ofNodes, List.append_nil,
    length_nodes, ruleName_cons h]
  rw [← htop]
  rfl

/-- What an element with a tag is made of: the tag is in its node, which stands before its parts. -/
structure IsTagged (f : Tag → Tree) (n : Nat) (k : NodeKind) (ns : List Node) : Prop where
  isPrimary (tag : Tag) : (f tag).IsPrimary
  top (tag : Tag) : (f tag).top n = n
  layout (tag : Tag) (q : Option NodeId) : (f tag).layout unlinked q n = tag.node k q :: ns
  quantifyTree (tag : Tag) (mark : Mark) (label : Option String) (position : Position) :
    OpenRule.quantifyTree (f tag) mark label position =
      (OpenRule.quantify tag mark label position).map f

theorem isTagged_group (items : List Tree) (n : Nat) : IsTagged (.group items) n
    (.group (Tree.ids (n + 1) items)) (Tree.layoutAll unlinked n (n + 1) items) :=
  ⟨fun _ => trivial, fun _ => rfl, fun _ _ => rfl, fun _ _ _ _ => rfl⟩

theorem exists_isTagged (h : t.IsPrimary) (n : Nat) :
    ∃ f tag k ns, t = f tag ∧ IsTagged f n k ns := by
  cases t with
  | leaf leaf tag =>
    exact ⟨.leaf leaf, tag, leaf.kind unlinked, [], rfl, fun _ => trivial, fun _ => rfl,
      fun _ _ => rfl, fun _ _ _ _ => rfl⟩
  | group items tag => exact ⟨.group items, tag, _, _, rfl, isTagged_group items n⟩
  | choice | lookAhead => exact h.elim

section Tagged

variable {f : Tag → Tree} {tag tag' : Tag} {k : NodeKind} {ns : List Node} {label : Option String}

theorem node_tagged (h : IsTagged f (next done stack) k ns) :
    (holding l done stack (f tag) q).graph.node (next done stack) = tag.node k q := by
  rw [holding, stored, h.layout]
  exact Graph.node_ofNodes length_nodes

theorem modify_tagged (h : IsTagged f (next done stack) k ns) {g : Node → Node}
    (hg : g (tag.node k q) = tag'.node k q) :
    (holding l done stack (f tag) q).graph.modify (next done stack) g =
      (holding l done stack (f tag') q).graph := by
  rw [holding, stored, h.layout, holding, stored, h.layout, ← hg]
  exact Graph.modify_ofNodes length_nodes g

theorem setLabel_tagged {p : GraphParser} (h : IsTagged f (next done stack) k ns)
    (hp : p.graph = (holding l done stack (f tag) q).graph) :
    p.setLabel (next done stack) label position =
      (Parser.relabel tag.label label position).map fun first =>
        { p with graph := (holding l done stack (f { tag with label := first }) q).graph } := by
  obtain ⟨lexer, graph, rules, root, current⟩ := p
  obtain ⟨place, repetition, own⟩ := tag
  obtain rfl := hp
  cases label with
  | none => cases own <;> rfl
  | some second =>
    rw [setLabel, node_tagged h]
    cases own with
    | some first => rfl
    | none =>
      have hlabelled := @modify_tagged l done stack q f ⟨place, repetition, none⟩
        ⟨place, repetition, some second⟩ k ns h (fun n => { n with label := some second }) rfl
      dsimp only [Tag.node]
      rw [hlabelled]
      rfl

theorem setRepetition_tagged (h : IsTagged f (next done stack) k ns) (mark : Mark) :
    (holding l done stack (f tag) q).setRepetition (next done stack) mark position =
      match mark.repetition with
      | .ok r => .ok (holding l done stack (f { tag with repetition := r }) q)
      | .error e => .error (fault position (.repetition e)) := by
  rw [setRepetition]
  cases mark.repetition with
  | error e => rfl
  | ok r =>
    dsimp only
    rw [@modify_tagged l done stack q f tag { tag with repetition := r } k ns h
      (fun n => n.repeated r) rfl]
    rfl

theorem qualify_agrees (h : t.IsPrimary) : AgreeOn
    (fun x p => x.1.IsPrimary ∧ x.1.top (next done stack) = t.top (next done stack) ∧
      p = holding x.2 done stack x.1 q)
    (Parser.quantified t l) ((holding l done stack t q).qualify (t.top (next done stack))) := by
  obtain ⟨f, tag, k, ns, rfl, hf⟩ := exists_isTagged h (next done stack)
  rw [hf.top]
  refine (AgreeOn.refl (look l)).bind fun a b hab => ?_
  obtain ⟨token, l'⟩ := a
  subst hab
  dsimp only
  cases token.lexeme with
  | quantifier mark label =>
    refine (AgreeOn.refl (take l')).bind fun a b hab => ?_
    obtain ⟨token', l''⟩ := a
    subst hab
    dsimp only
    rw [hf.quantifyTree, Parser.mapError_quantify]
    change AgreeOn _ _ (setLabel (holding l'' done stack (f tag) q) _ _ _ >>= _)
    rw [setLabel_tagged hf rfl]
    cases Parser.relabel tag.label label token.position with
    | error e => exact .error e
    | ok first =>
      change AgreeOn _ _
        (setRepetition (holding l'' done stack (f { tag with label := first }) q) _ _ _)
      rw [setRepetition_tagged hf]
      cases mark.repetition with
      | error e => exact .error _
      | ok r => exact .ok ⟨hf.isPrimary _, hf.top _, rfl⟩
  | _ => exact .ok ⟨hf.isPrimary tag, hf.top tag, rfl⟩

end Tagged

def Holds (l : Lexer) (done : List RuleTree) (x : Tree × List Container)
    (y : NodeId × GraphParser) : Prop :=
  Nested x.2 ∧ x.1.IsPrimary ∧ y.1 = x.1.top (next done x.2) ∧
    ∃ q, y.2 = holding l done x.2 x.1 q

theorem graph_group (position : Position) (items : List Tree) :
    (stored l done none (⟨.group, position, items⟩ :: cs) []).graph =
      (holding l done cs (.group items.reverse (.bare position))
        (Container.current (start done) cs)).graph := by
  have hchild : Container.childBelow (start done) (Container.mk .group position items) cs = none :=
    if_neg ContainerKind.noConfusion
  have hlabel : (Container.mk .group position items).head (Container.current (start done) cs)
      (next done cs) none = { (Container.mk .group position items).head
        (Container.current (start done) cs) (next done cs) none with label := none } := rfl
  rw [stored, holding, stored, nodes_cons, hchild, Tag.bare, Container.layout_group, ← hlabel,
    List.append_nil]
  rfl

theorem closeGroup_agrees (h : Nested stack) (label : Option String) (position : Position) :
    AgreeOn (Holds l done) (Parser.closeGroup stack label position)
      ((stored l done none stack []).closeGroup label position) := by
  have hclosed := (@represents_closeChoice l done stack h).2
  have hnested := h.closeChoice
  rw [Parser.closeGroup, closeGroup, hclosed]
  generalize Container.closeChoice stack = stack' at hnested
  cases hnested with
  | rule | choice | lookAhead =>
    dsimp only
    rw [openKind_stored]
    exact .error _
  | @group cs place items h =>
    have htagged := isTagged_group items.reverse (next done cs)
    have htop : (Container.mk .group place items).top (next done cs) = next done cs := rfl
    dsimp only
    rw [openKind_stored]
    change AgreeOn _ _ (setLabel _ ((Container.mk .group place items).top (next done cs)) _ _ >>= _)
    rw [htop, setLabel_tagged htagged (graph_group place items)]
    have hlabel : Parser.relabel (Tag.bare place).label label position = .ok label := by
      cases label <;> rfl
    rw [hlabel]
    have hparent : ((holding l done cs (.group items.reverse ⟨place, .once, label⟩)
        (Container.current (start done) cs)).graph.node (next done cs)).parent =
          Container.current (start done) cs := by
      rw [node_tagged htagged]
      rfl
    have hholding : ∀ current, current = Container.current (start done) cs →
        { stored l done none (⟨.group, place, items⟩ :: cs) [] with
          graph := (holding l done cs (.group items.reverse ⟨place, .once, label⟩)
            (Container.current (start done) cs)).graph
          current } = holding l done cs (.group items.reverse ⟨place, .once, label⟩)
            (Container.current (start done) cs) := by
      rintro _ rfl
      rw [stored, ruleName_cons h.ne_nil]
      rfl
    exact .ok ⟨h, trivial, rfl, _, hholding _ hparent⟩

theorem createLeaf_agrees (h : Nested stack) (token : Token) :
    AgreeOn (Holds l done) ((Parser.leaf token).map fun t => (t, stack))
      ((stored l done none stack []).createLeaf token) := by
  have hadd : ∀ lf, AgreeOn (Holds l done) (.ok (.leaf lf (.bare token.position), stack))
      (.ok ((nodes done none stack).length, { stored l done none stack [] with
        graph := .ofNodes (nodes done none stack ++
          [Node.ofKind (lf.kind unlinked) token.position]) })) := by
    intro lf
    refine .ok ⟨h, trivial, length_nodes, none, ?_⟩
    rfl
  have hcreate : (stored l done none stack []).createLeaf token = (leafKind token).map fun kind =>
      ((nodes done none stack).length, { stored l done none stack [] with
        graph := .ofNodes (nodes done none stack ++ [Node.ofKind kind token.position]) }) := by
    simp only [createLeaf, stored, List.append_nil, Graph.add_ofNodes]
    cases leafKind token <;> rfl
  rw [hcreate, Parser.leaf, leafKind]
  cases token.lexeme with
  | name word => exact hadd (.reference word)
  | literal text => exact hadd (.literal text)
  | cut => exact hadd .cut
  | charClass source =>
    dsimp only
    cases CharClass.parse source with
    | error e => exact .error _
    | ok set => exact hadd (.charClass set)
  | _ => exact .error _

theorem length_le_size : stack.length ≤ (holding l done stack t q).graph.size := by
  have hsizes : stack.length ≤ Container.sizes stack := by
    induction stack with
    | nil => exact Nat.le_refl 0
    | cons c cs ih =>
      rw [List.length_cons, Container.sizes, Container.size]
      omega
  have hsize : (holding l done stack t q).graph.size = next done stack + t.size := by
    simp [holding, stored, Graph.size, Graph.ofNodes, length_nodes, Tree.length_layout]
  rw [hsize, next]
  omega

theorem add_agrees {x : Except ParserError (Tree × List Container)}
    {y : Except ParserError (NodeId × GraphParser)} (h : AgreeOn (Holds l done) x y) :
    ∃ z, (match y >>= fun (node, p) => p.qualify node >>= fun p => pure (some node, p) with
      | .error e => some (.error e)
      | .ok (none, p) => some (.ok p)
      | .ok (some node, p) => attach (p.graph.size + 1) p node) = some z ∧
      AgreeOn (Represents done) (x >>= fun (t, stack) => Parser.qualify t stack l) z := by
  cases h with
  | error e => exact ⟨_, rfl, .error e⟩
  | @ok a b hab =>
    obtain ⟨t, stack⟩ := a
    obtain ⟨node, p⟩ := b
    obtain ⟨hnested, hprimary, rfl, q, rfl⟩ := hab
    have hqualify := @qualify_agrees l done stack t q hprimary
    simp only [bind, Except.bind, Parser.qualify_eq]
    revert hqualify
    generalize Parser.quantified t l = x
    generalize (holding l done stack t q).qualify (t.top (next done stack)) = y
    intro hqualify
    cases hqualify with
    | error e => exact ⟨_, rfl, .error e⟩
    | @ok a b hab =>
      obtain ⟨t', l'⟩ := a
      obtain ⟨-, htop, rfl⟩ := hab
      obtain ⟨z, hz, hagrees⟩ := @attach_agrees l' done stack t' q
        ((holding l' done stack t' q).graph.size + 1) hnested (Nat.lt_succ_of_le length_le_size)
      exact ⟨z, htop ▸ hz, hagrees⟩

theorem readElement_agrees (h : Nested stack) (token : Token) :
    ∃ y, (stored l done none stack []).readElement token = some y ∧
      AgreeOn (Represents done) (Parser.readElement token stack l) y := by
  have hleaf := add_agrees (@createLeaf_agrees l done stack h token)
  have hbind : ((Parser.leaf token).map fun t => (t, stack)) >>=
      (fun (t, stack) => Parser.qualify t stack l) =
      Parser.leaf token >>= fun t => Parser.qualify t stack l := by
    cases Parser.leaf token <;> rfl
  rw [hbind] at hleaf
  rw [readElement, element, Parser.readElement]
  cases token.lexeme with
  | opening =>
    refine ⟨_, rfl, .ok ⟨.group _ _ h, ?_⟩⟩
    exact openContainer_stored (k := .group) ContainerKind.noConfusion rfl h.ne_nil
  | lookAhead positive =>
    have hopened : (stored l done none stack []).openContainer
        (Node.ofKind (.lookAhead positive none) token.position) =
        stored l done none (⟨.lookAhead positive, token.position, []⟩ :: stack) [] :=
      openContainer_stored (k := .lookAhead positive) ContainerKind.noConfusion rfl h.ne_nil
    have hnested : Nested (⟨.lookAhead positive, token.position, []⟩ :: stack) := .lookAhead _ _ h
    dsimp only
    rw [hopened]
    cases h with
    | lookAhead =>
      rw [openKind_stored]
      exact ⟨_, rfl, .error _⟩
    | rule | group | choice =>
      rw [openKind_stored]
      exact ⟨_, rfl, .ok ⟨hnested, rfl⟩⟩
  | closing label => exact add_agrees (closeGroup_agrees h label token.position)
  | _ => exact hleaf

/-- The state of a parser before a rule is opened, when some rules are finished. -/
structure Between (done : List RuleTree) (p : GraphParser) : Prop where
  graph : p.graph = .ofNodes (RuleTree.layoutAll unlinked 0 done.reverse)
  rules : p.rules = RuleTree.index 0 done.reverse

inductive Follows : Parser → GraphParser → Prop
  | idle (l : Lexer) : Follows ⟨l, [], []⟩ ⟨l, .empty, [], none, none⟩
  | inRule {l : Lexer} {done : List RuleTree} {stack : List Container} : Nested stack →
      Follows ⟨l, done, stack⟩ (stored l done none stack [])

theorem between_finished (l : Lexer) (done : List RuleTree) (name : String) (position : Position)
    (items : List Tree) : Between (⟨name, position, items.reverse⟩ :: done)
      (stored l done none [⟨.rule name, position, items⟩] []) := by
  constructor
  · rw [List.reverse_cons, RuleTree.layoutAll_concat, Nat.zero_add, ← Container.layout_rule]
    simp [stored, nodes, Container.layoutAll, Container.sizes, Container.current, start]
  · rw [List.reverse_cons, RuleTree.index_concat, Nat.zero_add]
    rfl

theorem openRule_agrees {p : GraphParser} (h : Between done p) (token : Token) :
    AgreeOn Follows (Parser.openRule done token p.lexer) (p.openRule token) := by
  obtain ⟨l, graph, rules, root, current⟩ := p
  obtain ⟨rfl, rfl⟩ := h
  rw [Parser.openRule, openRule]
  cases token.lexeme with
  | name word =>
    refine (AgreeOn.refl (take l)).bind fun a b hab => ?_
    obtain ⟨define, l'⟩ := a
    subst hab
    dsimp only
    rw [RuleTree.isSome_lookup_index, List.any_reverse]
    split
    · exact .error _
    · split
      · exact .error _
      · have hopened : stored l' done none [⟨.rule word, token.position, []⟩] [] =
            ⟨l', .ofNodes (RuleTree.layoutAll unlinked 0 done.reverse ++
              [{ Node.ofKind (.rule word []) token.position with label := some word }]),
              RuleTree.index 0 done.reverse ++ [(word, start done)], some (start done),
              some (start done)⟩ := by
          simp [stored, nodes, Container.layoutAll, Container.layout_rule, RuleTree.layout_eq,
            Container.current, Tree.layoutAll, RuleTree.head, Tree.ids, Parser.ruleName,
            Container.sizes, Container.top, Container.lead, Tree.sizes]
        rw [Graph.add_ofNodes, RuleTree.length_layoutAll]
        dsimp only
        exact .ok (hopened ▸ .inRule (.rule ..))
  | _ => exact .error _

theorem exists_rule_head (h : Nested stack) (first : Nat) (inner : Option NodeId) :
    ∃ n ns ids, Container.layoutAll first inner stack = n :: ns ∧
      n.kind = .rule (Parser.ruleName stack) ids := by
  induction stack generalizing inner with
  | nil => exact absurd rfl h.ne_nil
  | cons c cs ih =>
    rcases h.rule_or_cons with ⟨name, position, items, rfl, rfl⟩ | hcs
    · exact ⟨_, _, _, rfl, rfl⟩
    · obtain ⟨n, ns, ids, hlayout, hkind⟩ := ih hcs (Container.childBelow first c cs)
      rw [Container.layoutAll, hlayout, ruleName_cons hcs.ne_nil]
      exact ⟨n, _, ids, rfl, hkind⟩

theorem ruleName_start (h : Nested stack) :
    ruleName (stored l done none stack []).graph (start done) = Parser.ruleName stack := by
  obtain ⟨n, ns, ids, hlayout, hkind⟩ := exists_rule_head h (start done) none
  have hnode : (stored l done none stack []).graph.node (start done) = n := by
    rw [stored, List.append_nil, nodes, hlayout]
    exact Graph.node_ofNodes (RuleTree.length_layoutAll 0 _)
  rw [ruleName, hnode, hkind]

theorem current_cons_ne (h : cs ≠ []) :
    (stored l done none (c :: cs) []).current ≠ some (start done) := by
  obtain ⟨d, ds, rfl⟩ := List.exists_cons_of_ne_nil h
  intro heq
  have htop : c.top (start done + Container.sizes (d :: ds)) = start done := Option.some.inj heq
  have hpos := d.size_pos
  rw [Container.top, Container.sizes] at htop
  omega

theorem closeRule_agrees (h : Nested stack) (word : String) (position : Position) :
    AgreeOn (fun done' _ => Between done' (stored l done none stack []))
      (Parser.closeRule done stack word position)
      ((stored l done none stack []).closeRule word position) := by
  obtain ⟨c, cs, rfl⟩ := List.exists_cons_of_ne_nil h.ne_nil
  rcases h.rule_or_cons with ⟨name, place, items, rfl, rfl⟩ | hcs
  · have hclose : (stored l done none [⟨.rule name, place, items⟩] []).closeRule word position =
        .ok () := if_pos rfl
    rw [hclose]
    exact .ok (between_finished l done name place items)
  · have hclose : (stored l done none (c :: cs) []).closeRule word position =
        .error (fault position (.ruleInsideGroup word (Parser.ruleName (c :: cs)))) := by
      rw [← @ruleName_start l done _ h]
      exact if_neg (current_cons_ne hcs.ne_nil)
    rw [hclose, Parser.closeRule_of_ne_nil hcs.ne_nil]
    exact .error _

theorem finish_agrees {p : Parser} {q : GraphParser} (h : Follows p q) :
    AgreeOn (fun trees x => x = (.ofNodes (RuleTree.layoutAll unlinked 0 trees),
      RuleTree.index 0 trees)) p.finish q.finish := by
  cases h with
  | idle l => exact .ok rfl
  | @inRule l done stack h =>
    obtain ⟨c, cs, rfl⟩ := List.exists_cons_of_ne_nil h.ne_nil
    rcases h.rule_or_cons with ⟨name, place, items, rfl, rfl⟩ | hcs
    · have hbetween := between_finished l done name place items
      have hfinish : (stored l done none [⟨.rule name, place, items⟩] []).finish =
          .ok ((stored l done none [⟨.rule name, place, items⟩] []).graph,
            (stored l done none [⟨.rule name, place, items⟩] []).rules) := if_pos rfl
      rw [hfinish, hbetween.graph, hbetween.rules]
      exact .ok rfl
    · have hfinish : (stored l done none (c :: cs) []).finish = look l >>= fun (next, _) =>
          .error (fault next.position (.unclosedRule (Parser.ruleName (c :: cs)))) := by
        rw [← @ruleName_start l done _ h]
        exact if_neg (current_cons_ne hcs.ne_nil)
      rw [hfinish, Parser.finish_cons hcs.ne_nil]
      refine (AgreeOn.refl (look l)).bind fun a b hab => ?_
      subst hab
      exact .error _

theorem withStack_agrees (h : Nested stack) (token : Token) :
    ∃ y, (stored l done none stack []).readElement token = some y ∧
      AgreeOn Follows (Parser.withStack done (Parser.readElement token stack l)) y := by
  obtain ⟨y, hy, hagrees⟩ := @readElement_agrees l done stack h token
  refine ⟨y, hy, ?_⟩
  revert hagrees
  generalize Parser.readElement token stack l = x
  rintro (e | @⟨⟨stack', l'⟩, _, hnested, rfl⟩)
  · exact .error e
  · exact .ok (.inRule hnested)

theorem openKind_ne_nothing (h : Nested stack) :
    (stored l done none stack []).openKind ≠ .nothing := by
  obtain ⟨c, cs, rfl⟩ := List.exists_cons_of_ne_nil h.ne_nil
  rw [openKind_stored]
  cases c.kind <;> exact OpenKind.noConfusion

/-- A name that is being defined ends the rule, and any other one is an element. -/
theorem turn_name_agrees (h : Nested stack) {token : Token} {word : String}
    (hword : token.lexeme = .name word) :
    ∃ y, (stored l done none stack []).turn token = some y ∧
      AgreeOn Follows (Parser.turn ⟨l, done, stack⟩ token) y := by
  have hlexer : (stored l done none stack []).lexer = l := rfl
  rw [turn, if_neg (openKind_ne_nothing h), Parser.turn_name h.ne_nil hword, hword]
  dsimp only
  rw [hlexer]
  cases look l with
  | error e => exact ⟨_, rfl, .error e⟩
  | ok a =>
    obtain ⟨next, l'⟩ := a
    change ∃ y, (if next.lexeme = .define then
        some (closeRule (stored l' done none stack []) word token.position >>= fun _ =>
          (stored l' done none stack []).openRule token)
      else (stored l' done none stack []).readElement token) = some y ∧ AgreeOn Follows
      (if next.lexeme = .define then Parser.closeRule done stack word token.position >>=
        fun done => Parser.openRule done token l'
      else Parser.withStack done (Parser.readElement token stack l')) y
    split
    · exact ⟨_, rfl, (closeRule_agrees h word token.position).bind fun done' _ hbetween =>
        openRule_agrees hbetween token⟩
    · exact withStack_agrees h token

theorem turn_agrees {p : Parser} {q : GraphParser} (h : Follows p q) (token : Token) :
    ∃ y, q.turn token = some y ∧ AgreeOn Follows (p.turn token) y := by
  cases h with
  | idle l =>
    have hbetween : Between [] ⟨l, .empty, [], none, none⟩ := ⟨rfl, rfl⟩
    exact ⟨_, rfl, openRule_agrees hbetween token⟩
  | @inRule l done stack h =>
    by_cases hname : ∃ word, token.lexeme = .name word
    · exact turn_name_agrees h hname.choose_spec
    · have hne : ∀ word, token.lexeme ≠ .name word := fun word hword => hname ⟨word, hword⟩
      rw [turn, if_neg (openKind_ne_nothing h), Parser.turn_of_ne_name h.ne_nil hne]
      have helement := @withStack_agrees l done stack h token
      revert helement
      cases hl : token.lexeme with
      | name word => exact absurd hl (hne word)
      | _ => exact id

theorem Follows.lexer {p : Parser} {q : GraphParser} (h : Follows p q) : q.lexer = p.lexer := by
  cases h <;> rfl

theorem Follows.withLexer {p : Parser} {q : GraphParser} (h : Follows p q) (l : Lexer) :
    Follows { p with lexer := l } { q with lexer := l } := by
  cases h with
  | idle => exact .idle l
  | inRule h => exact .inRule h

theorem run_agrees {fuel : Nat} {p : Parser} {q : GraphParser}
    {x : Except ParserError (List RuleTree)} (h : Follows p q) (hrun : Parser.run fuel p = some x) :
    ∃ y, q.run fuel = some y ∧ AgreeOn (fun trees graph => graph =
      (.ofNodes (RuleTree.layoutAll unlinked 0 trees), RuleTree.index 0 trees)) x y := by
  induction fuel generalizing p q with
  | zero => cases hrun
  | succ fuel ih =>
    revert hrun
    rw [Parser.run, run, h.lexer]
    generalize p.lexer.hasNext = next
    rcases next with ⟨e | more, l⟩
    · rintro ⟨⟩
      exact ⟨_, rfl, .error _⟩
    cases more with
    | false =>
      rintro ⟨⟩
      exact ⟨_, rfl, finish_agrees (h.withLexer l)⟩
    | true =>
      dsimp only
      generalize take l = taken
      rcases taken with e | ⟨token, l'⟩
      · rintro ⟨⟩
        exact ⟨_, rfl, .error _⟩
      · obtain ⟨y, hy, hagrees⟩ := turn_agrees (h.withLexer l') token
        dsimp only
        rw [hy]
        generalize Parser.turn { p with lexer := l' } token = z at hagrees
        cases hagrees with
        | error e =>
          rintro ⟨⟩
          exact ⟨_, rfl, .error e⟩
        | ok h => exact ih h

/-- Parsing straight into a graph ends on every source: with the error of the builder, or with the
nodes of its rules laid out and no reference linked. -/
theorem run_ofString {source : String} {fuel : Nat} (hfuel : source.toList.length < fuel) :
    (ofString source).run fuel = some (((RuleTree.parse source).mapError .grammar).map fun trees =>
      (.ofNodes (RuleTree.layoutAll unlinked 0 trees), RuleTree.index 0 trees)) := by
  obtain ⟨y, hy, hagrees⟩ := run_agrees (.idle (.ofString source)) (Parser.run_eq_parse hfuel)
  refine hy.trans (congrArg some ?_)
  revert hagrees
  generalize (RuleTree.parse source).mapError ParserError.grammar = x
  rintro (e | ⟨rfl⟩)
  · rfl
  · rfl

end GraphParser

end Ebnf
