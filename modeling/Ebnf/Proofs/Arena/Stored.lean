import Ebnf.Proofs.Arena.Building
import Ebnf.Proofs.LaidOut

/-! Open containers as nodes. A container stands in the graph like the tree it becomes: its elements
around its own node, each with the number it keeps. Its node names the container below it as its
parent, but of that one it is a child only if it is an alternative. -/

namespace Ebnf

def unlinked : String → Option NodeId := fun _ => none

namespace RuleTree

theorem layoutAll_concat (next : Nat) (rules : List RuleTree) (r : RuleTree) :
    layoutAll unlinked next (rules ++ [r]) =
      layoutAll unlinked next rules ++ r.layout unlinked (next + sizes rules) := by
  induction rules generalizing next with
  | nil => simp [layoutAll, sizes]
  | cons s rules ih =>
    simp only [List.cons_append, layoutAll, ih, sizes, List.append_assoc, Nat.add_assoc]

theorem index_concat (next : Nat) (rules : List RuleTree) (r : RuleTree) :
    index next (rules ++ [r]) = index next rules ++ [(r.name, next + sizes rules)] := by
  induction rules generalizing next with
  | nil => simp [index, sizes]
  | cons s rules ih => simp only [List.cons_append, index, ih, sizes, Nat.add_assoc]

theorem isSome_lookup_index (word : String) (next : Nat) (rules : List RuleTree) :
    ((index next rules).lookup word).isSome = rules.any (·.name = word) := by
  induction rules generalizing next with
  | nil => rfl
  | cons r rules ih =>
    rw [index, List.lookup_cons, List.any_cons, ← ih (next + r.size)]
    by_cases hword : word = r.name
    · simp [hword]
    · have hbeq : (word == r.name) = false := beq_eq_false_iff_ne.2 hword
      simp [hbeq, Ne.symm hword]

end RuleTree

namespace Graph

def ofNodes (nodes : List Node) : Graph := ⟨nodes.toArray, []⟩

variable {as bs cs : List Node} {m n : Node} {kind : NodeKind} {id : Nat}

theorem add_ofNodes (n : Node) (nodes : List Node) :
    (ofNodes nodes).add n = (nodes.length, ofNodes (nodes ++ [n])) := by
  simp [ofNodes, add]

theorem node_ofNodes (h : as.length = id) : (ofNodes (as ++ n :: bs)).node id = n := by
  subst h
  simp [ofNodes, node, Array.getD_eq_getD_getElem?]

theorem modify_ofNodes (h : as.length = id) (f : Node → Node) :
    (ofNodes (as ++ n :: bs)).modify id f = ofNodes (as ++ f n :: bs) := by
  subst h
  have hnodes : (as ++ n :: bs).modify as.length f = as ++ f n :: bs := by
    induction as with
    | nil => rfl
    | cons a as ih => exact congrArg (a :: ·) ih
  simp [ofNodes, modify, hnodes]

theorem adopt?_behind {p c : Nat} (hp : as.length = p) (hc : p + 1 + bs.length = c)
    (hkind : m.kind.push? c = some kind) :
    (ofNodes (as ++ m :: (bs ++ n :: cs))).adopt? p c =
      some (ofNodes (as ++ { m with kind } :: (bs ++ { n with parent := some p } :: cs))) := by
  have hchild : (as ++ { m with kind } :: bs).length = c := by
    simp only [List.length_append, List.length_cons]
    omega
  have hpush : (ofNodes (as ++ m :: (bs ++ n :: cs))).push? p c =
      some (ofNodes ((as ++ { m with kind } :: bs) ++ n :: cs)) := by
    rw [push?, node_ofNodes hp, hkind]
    simp [modifyKind, modify_ofNodes hp]
  rw [adopt?, hpush, Option.map_some, modify_ofNodes hchild]
  simp

theorem adopt?_before {p c : Nat} (hc : as.length = c) (hp : c + 1 + bs.length = p)
    (hkind : m.kind.push? c = some kind) :
    (ofNodes (as ++ n :: (bs ++ m :: cs))).adopt? p c =
      some (ofNodes (as ++ { n with parent := some p } :: (bs ++ { m with kind } :: cs))) := by
  have hparent : (as ++ n :: bs).length = p := by
    simp only [List.length_append, List.length_cons]
    omega
  have hnodes : as ++ n :: (bs ++ m :: cs) = (as ++ n :: bs) ++ m :: cs := by simp
  have hpush : (ofNodes (as ++ n :: (bs ++ m :: cs))).push? p c =
      some (ofNodes (as ++ n :: (bs ++ { m with kind } :: cs))) := by
    rw [hnodes, push?, node_ofNodes hparent, hkind, Option.map_some, modifyKind,
      modify_ofNodes hparent]
    simp
  rw [adopt?, hpush, Option.map_some, modify_ofNodes hc]

end Graph

theorem Tree.head_eq (parent q : Option NodeId) (first : Nat) (t : Tree) :
    t.head unlinked parent first = { t.head unlinked q first with parent } := by
  cases t <;> rfl

namespace ContainerKind

/-- The kind of node that a container with these children has. -/
def node (ids : List NodeId) : ContainerKind → NodeKind
  | rule name => .rule name ids
  | group => .group ids
  | choice => .choice ids (.uniform 0) (.uniform 0)
  | lookAhead positive => .lookAhead positive ids.head?

def label : ContainerKind → Option String
  | rule name => some name
  | _ => none

def openKind : ContainerKind → OpenKind
  | rule _ => .rule
  | group => .group
  | choice => .choice
  | lookAhead _ => .lookAhead

theorem openKind_node (ids : List NodeId) (k : ContainerKind) :
    (k.node ids).openKind = k.openKind := by
  cases k <;> rfl

theorem openKind_eq_choice {k : ContainerKind} : k.openKind = .choice ↔ k = .choice := by
  cases k <;> simp [openKind]

end ContainerKind

namespace Container

/-- The elements whose nodes stand before the container's own. -/
def lead (c : Container) : List Tree :=
  if c.kind = .choice then c.items.reverse.take 1 else []

def rest (c : Container) : List Tree :=
  if c.kind = .choice then c.items.reverse.drop 1 else c.items.reverse

def size (c : Container) : Nat := Tree.sizes c.lead + 1 + Tree.sizes c.rest

/-- The number of a container whose nodes are numbered from `first` on. -/
def top (first : Nat) (c : Container) : Nat := first + Tree.sizes c.lead

def kids (first : Nat) (c : Container) : List NodeId :=
  Tree.ids first c.lead ++ Tree.ids (c.top first + 1) c.rest

def head (parent : Option NodeId) (first : Nat) (inner : Option NodeId) (c : Container) : Node :=
  ⟨c.kind.node (c.kids first ++ inner.toList), c.position, .once, Repetition.once.yield,
    c.kind.label, parent⟩

def layout (parent : Option NodeId) (first : Nat) (inner : Option NodeId) (c : Container) :
    List Node :=
  Tree.layoutAll unlinked (c.top first) first c.lead ++
    c.head parent first inner ::
      Tree.layoutAll unlinked (c.top first) (c.top first + 1) c.rest

/-- A container that takes one more element. An alternative is not opened without one. -/
structure HasRoom (c : Container) : Prop where
  choice : c.kind = .choice → c.items ≠ []
  lookAhead {positive : Bool} : c.kind = .lookAhead positive → c.items = []

variable {c : Container} {cs : List Container} {t : Tree} {parent : Option NodeId} {first : Nat}

theorem length_layout (inner : Option NodeId) : (c.layout parent first inner).length = c.size := by
  simp only [layout, size, List.length_append, List.length_cons, Tree.length_layoutAll]
  omega

theorem lead_add (h : c.kind = .choice → c.items ≠ []) : (c.add t).lead = c.lead := by
  unfold lead add
  split
  · next hchoice =>
    have hne : c.items.reverse ≠ [] := by simpa using h hchoice
    obtain ⟨o, os, hitems⟩ := List.exists_cons_of_ne_nil hne
    simp [hitems]
  · rfl

theorem rest_add (h : c.kind = .choice → c.items ≠ []) : (c.add t).rest = c.rest ++ [t] := by
  unfold rest add
  split
  · next hchoice =>
    have hne : c.items.reverse ≠ [] := by simpa using h hchoice
    obtain ⟨o, os, hitems⟩ := List.exists_cons_of_ne_nil hne
    simp [hitems]
  · simp

theorem top_add (h : c.kind = .choice → c.items ≠ []) : (c.add t).top first = c.top first := by
  rw [top, top, lead_add h]

theorem top_add_one_add_sizes_rest : c.top first + 1 + Tree.sizes c.rest = first + c.size := by
  simp only [top, size]
  omega

theorem layout_add (h : c.kind = .choice → c.items ≠ []) :
    (c.add t).layout parent first none =
      c.layout parent first (some (t.top (first + c.size))) ++
        t.layout unlinked (some (c.top first)) (first + c.size) := by
  have hkids : (c.add t).kids first = c.kids first ++ [t.top (first + c.size)] := by
    rw [kids, kids, lead_add h, rest_add h, top_add h, Tree.ids_append, top_add_one_add_sizes_rest,
      Tree.ids, Tree.ids, List.append_assoc]
  have hhead : (c.add t).head parent first none =
      c.head parent first (some (t.top (first + c.size))) := by
    rw [head, head, hkids]
    simp [add]
  have hrest : Tree.layoutAll unlinked (c.top first) (c.top first + 1) (c.rest ++ [t]) =
      Tree.layoutAll unlinked (c.top first) (c.top first + 1) c.rest ++
        t.layout unlinked (some (c.top first)) (first + c.size) := by
    rw [Tree.layoutAll_append, top_add_one_add_sizes_rest]
    simp [Tree.layoutAll]
  rw [layout, layout, hhead, lead_add h, rest_add h, top_add h, hrest]
  simp

theorem layout_lookAhead (positive : Bool) (position : Position) :
    (Container.mk (.lookAhead positive) position []).layout parent first
        (some (t.top (first + 1))) ++
        t.layout unlinked (some first) (first + 1) =
      (Tree.lookAhead positive t position).layout unlinked parent first := rfl

theorem layout_choice (position : Position) (items : List Tree) :
    (Container.mk .choice position items).layout parent first none =
      (Tree.choice items.reverse position).layout unlinked parent first := by
  rw [Tree.layout_eq, Tree.top_eq]
  simp only [layout, top, lead, rest, Tree.lead, Tree.rest, if_pos]
  simp [head, Tree.head, kids, top, lead, rest, Tree.kids, Tree.top_eq, Tree.lead, Tree.rest,
    ContainerKind.node, ContainerKind.label, Tag.node, Tag.bare]

theorem layout_group (position : Position) (items : List Tree) (label : Option String) :
    (Tree.group items.reverse ⟨position, .once, label⟩).layout unlinked parent first =
      { (Container.mk .group position items).head parent first none with label } ::
        Tree.layoutAll unlinked first (first + 1) items.reverse := by
  simp [Tree.layout, head, kids, top, lead, rest, Tag.node, ContainerKind.node, Tree.ids,
    Tree.sizes]

theorem push?_head (h : c.HasRoom) (id : NodeId) :
    (c.head parent first none).kind.push? id = some (c.head parent first (some id)).kind := by
  obtain ⟨kind, position, items⟩ := c
  cases kind with
  | rule | group | choice => simp [head, ContainerKind.node, NodeKind.push?]
  | lookAhead positive =>
    obtain rfl : items = [] := h.lookAhead rfl
    rfl

theorem adopt?_layout {as bs cs : List Node} {n : Node} {id : Nat} (h : c.HasRoom)
    (has : as.length = first) (hid : first + c.size + bs.length = id) :
    (Graph.ofNodes (as ++ (c.layout parent first none ++ (bs ++ n :: cs)))).adopt?
        (c.top first) id =
      some (.ofNodes (as ++ (c.layout parent first (some id) ++
        (bs ++ { n with parent := some (c.top first) } :: cs)))) := by
  have hsize := @top_add_one_add_sizes_rest c first
  have hp : (as ++ Tree.layoutAll unlinked (c.top first) first c.lead).length = c.top first := by
    simp [Tree.length_layoutAll, has, top]
  have hc : c.top first + 1 +
      (Tree.layoutAll unlinked (c.top first) (c.top first + 1) c.rest ++ bs).length = id := by
    simp only [List.length_append, Tree.length_layoutAll]
    omega
  have hadopt := @Graph.adopt?_behind _ _ cs (c.head parent first none) n _ _ _ hp hc
    (push?_head h _)
  simp only [layout, List.append_assoc, List.cons_append] at hadopt ⊢
  exact hadopt

theorem adopt?_option {as : List Node} {m : Node} {kind : NodeKind} {q : Option NodeId}
    (has : as.length = first) (hkind : m.kind.push? (t.top first) = some kind) :
    (Graph.ofNodes (as ++ (t.layout unlinked q first ++ [m]))).adopt? (first + t.size)
        (t.top first) =
      some (.ofNodes (as ++ (t.layout unlinked (some (first + t.size)) first ++
        [{ m with kind }]))) := by
  have hsize := t.size_eq
  have htop := t.top_eq first
  have hc : (as ++ Tree.layoutAll unlinked (t.top first) first t.lead).length = t.top first := by
    rw [List.length_append, Tree.length_layoutAll, has, htop]
  have hp : t.top first + 1 + (Tree.layoutAll unlinked (t.top first) (t.top first + 1)
      t.rest).length = first + t.size := by
    rw [Tree.length_layoutAll]
    omega
  have hadopt := @Graph.adopt?_before _ _ [] m (t.head unlinked q first) _ _ _ hc hp hkind
  rw [← Tree.head_eq] at hadopt
  simp only [Tree.layout_eq, List.append_assoc, List.cons_append] at hadopt ⊢
  exact hadopt

theorem layout_option (position : Position) :
    (Container.mk .choice position [t]).layout parent first none =
      t.layout unlinked (some (first + t.size)) first ++
        [{ Node.ofKind (.choice [t.top first] (.uniform 0) (.uniform 0)) position with
          parent }] := by
  have hlead : (Container.mk .choice position [t]).lead = [t] := rfl
  have hrest : (Container.mk .choice position [t]).rest = [] := rfl
  rw [Container.layout, hlead, hrest, Tree.layoutAll, Tree.layoutAll, Tree.layoutAll,
    List.append_nil]
  rfl

/-- The nodes of open containers, the outermost of which starts at `first`. -/
def sizes : List Container → Nat
  | [] => 0
  | c :: cs => sizes cs + c.size

def current (first : Nat) : List Container → Option NodeId
  | [] => none
  | c :: cs => some (c.top (first + sizes cs))

def childBelow (first : Nat) (c : Container) (cs : List Container) : Option NodeId :=
  if c.kind = .choice then current first (c :: cs) else none

def layoutAll (first : Nat) (inner : Option NodeId) : List Container → List Node
  | [] => []
  | c :: cs =>
    layoutAll first (childBelow first c cs) cs ++
      c.layout (current first cs) (first + sizes cs) inner

theorem size_pos (c : Container) : 0 < c.size := by
  rw [size]
  omega

theorem layout_rule (name : String) (position : Position) (items : List Tree) :
    (Container.mk (.rule name) position items).layout none first none =
      (RuleTree.mk name position items.reverse).layout unlinked first := by
  simp [layout, head, kids, top, lead, rest, RuleTree.layout_eq, RuleTree.head, ContainerKind.node,
    ContainerKind.label, Tree.layoutAll, Tree.ids, Tree.sizes, Node.ofKind]

theorem length_layoutAll (inner : Option NodeId) :
    (layoutAll first inner cs).length = sizes cs := by
  induction cs generalizing inner with
  | nil => rfl
  | cons c cs ih => rw [layoutAll, List.length_append, ih, length_layout, sizes]

/-- Containers as the parser nests them: alternatives in rules and groups, and look-aheads that wait
for their operands. -/
inductive Nested : List Container → Prop
  | rule (name : String) (position : Position) (items : List Tree) :
      Nested [⟨.rule name, position, items⟩]
  | group {cs : List Container} (position : Position) (items : List Tree) : Nested cs →
      Nested (⟨.group, position, items⟩ :: cs)
  | choice {c : Container} {cs : List Container} (position : Position) {items : List Tree} :
      c.kind ≠ .choice → (∀ positive, c.kind ≠ .lookAhead positive) → items ≠ [] →
      Nested (c :: cs) → Nested (⟨.choice, position, items⟩ :: c :: cs)
  | lookAhead {cs : List Container} (positive : Bool) (position : Position) : Nested cs →
      Nested (⟨.lookAhead positive, position, []⟩ :: cs)

theorem Nested.hasRoom (h : Nested (c :: cs)) : c.HasRoom := by
  cases h with
  | rule | group => exact ⟨nofun, nofun⟩
  | choice _ _ _ hitems => exact ⟨fun _ => hitems, nofun⟩
  | lookAhead => exact ⟨nofun, fun _ => rfl⟩

theorem Nested.rule_or_cons (h : Nested (c :: cs)) :
    (∃ name position items, c = ⟨.rule name, position, items⟩ ∧ cs = []) ∨ Nested cs := by
  cases h with
  | rule name position items => exact .inl ⟨name, position, items, rfl, rfl⟩
  | group _ _ h | choice _ _ _ _ h | lookAhead _ _ h => exact .inr h

theorem Nested.tail {d : Container} (h : Nested (d :: c :: cs)) : Nested (c :: cs) := by
  cases h with
  | group _ _ h | choice _ _ _ _ h | lookAhead _ _ h => exact h

theorem Nested.add (h : Nested (c :: cs)) (hc : ∀ positive, c.kind ≠ .lookAhead positive) :
    Nested (c.add t :: cs) := by
  cases h with
  | rule => exact .rule ..
  | group _ _ h => exact .group _ _ h
  | choice _ hchoice hlook _ h => exact .choice _ hchoice hlook (List.cons_ne_nil _ _) h
  | lookAhead positive => exact absurd rfl (hc positive)

theorem Nested.closeChoice (h : Nested cs) : Nested (Container.closeChoice cs) := by
  cases h with
  | choice _ _ hlook _ h => exact h.add hlook
  | rule => exact .rule ..
  | group _ _ h => exact .group _ _ h
  | lookAhead _ _ h => exact .lookAhead _ _ h

theorem Nested.ne_nil (h : Nested cs) : cs ≠ [] := by
  cases h <;> exact List.cons_ne_nil _ _

end Container

end Ebnf
