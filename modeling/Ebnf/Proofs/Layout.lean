import Ebnf.Grammar

/-! The graph of a list of rules. The nodes of a tree stand in a row: first those of an
alternative's first option, then its own, then those of its other parts. What is true of a row of
trees is proved along this order. A reference that names a rule points at the node of that rule. -/

namespace Ebnf

variable {targets : String → Option NodeId}

namespace NodeKind

def bare : NodeKind → NodeKind
  | choice options _ _ => choice options (.uniform 0) (.uniform 0)
  | kind => kind

@[simp] theorem children_bare (k : NodeKind) : k.bare.children = k.children := by
  cases k <;> rfl

theorem eq_of_bare_eq {k l : NodeKind} (h : k.bare = l.bare) (hl : l.isChoice = false) :
    k = l := by
  cases l with
  | choice => cases hl
  | _ =>
    cases k with
    | choice => cases h
    | _ => exact h

theorem exists_of_bare_choice {k : NodeKind} {options : List NodeId}
    {weights escapes : Distribution} (h : k.bare = (choice options weights escapes).bare) :
    ∃ weights' escapes', k = choice options weights' escapes' := by
  cases k with
  | choice =>
    obtain ⟨rfl, -, -⟩ := choice.inj h
    exact ⟨_, _, rfl⟩
  | _ => cases h

end NodeKind

namespace Tree

def parts : Tree → List Tree
  | leaf _ _ => []
  | group items _ => items
  | choice options _ => options
  | lookAhead _ operand _ => [operand]

/-- The parts whose nodes stand before the tree's own. -/
def lead : Tree → List Tree
  | choice options _ => options.take 1
  | _ => []

/-- The parts whose nodes stand behind the tree's own. -/
def rest : Tree → List Tree
  | choice options _ => options.drop 1
  | t => t.parts

theorem lead_append_rest (t : Tree) : t.lead ++ t.rest = t.parts := by
  cases t with
  | choice options => exact List.take_append_drop 1 options
  | _ => rfl

theorem mem_parts {p t : Tree} : p ∈ t.parts ↔ p ∈ t.lead ∨ p ∈ t.rest := by
  rw [← lead_append_rest, List.mem_append]

def kids (first : NodeId) (t : Tree) : List NodeId :=
  ids first t.lead ++ ids (t.top first + 1) t.rest

def head (targets : String → Option NodeId) (parent : Option NodeId) (first : NodeId)
    (t : Tree) : Node :=
  match t with
  | leaf l tag => tag.node (l.kind targets) parent
  | group _ tag => tag.node (.group (t.kids first)) parent
  | choice _ position =>
    (Tag.bare position).node (.choice (t.kids first) (.uniform 0) (.uniform 0)) parent
  | lookAhead positive _ position =>
    (Tag.bare position).node (.lookAhead positive (t.kids first).head?) parent

inductive Within (s : Tree) : Tree → Prop
  | refl : Within s s
  | part {p t : Tree} : p ∈ t.parts → Within s p → Within s t

theorem sizes_append (ts us : List Tree) : sizes (ts ++ us) = sizes ts + sizes us := by
  induction ts with
  | nil => simp [sizes]
  | cons t ts ih => rw [List.cons_append, sizes, sizes, ih, Nat.add_assoc]

theorem size_eq (t : Tree) : t.size = sizes t.lead + 1 + sizes t.rest := by
  have hparts : t.size = 1 + sizes t.parts := by
    cases t <;> simp [size, parts, sizes]
  rw [hparts, ← lead_append_rest, sizes_append]
  omega

theorem size_pos (t : Tree) : 0 < t.size := by
  rw [size_eq]
  omega

theorem size_lt_of_mem_parts {p t : Tree} (h : p ∈ t.parts) : p.size < t.size := by
  have hle : p.size ≤ sizes t.parts := by
    obtain ⟨before, after, heq⟩ := List.append_of_mem h
    rw [heq, sizes_append, sizes]
    omega
  rw [← lead_append_rest, sizes_append] at hle
  have hsize := t.size_eq
  omega

theorem top_eq (first : Nat) (t : Tree) : t.top first = first + sizes t.lead := by
  cases t with
  | choice options =>
    cases options with
    | nil => rfl
    | cons o os => rfl
  | _ => rfl

/-- What is true of a row of trees follows from what is true of the parts before the first tree's
own node, of those behind it, and of the trees behind. -/
@[elab_as_elim]
theorem row_induction {P : List Tree → Prop} (nil : P [])
    (cons : ∀ t ts, P t.lead → P t.rest → P ts → P (t :: ts)) (ts : List Tree) : P ts := by
  have hall : ∀ n, ∀ ts : List Tree, sizes ts ≤ n → P ts := by
    intro n
    induction n with
    | zero =>
      intro ts hn
      cases ts with
      | nil => exact nil
      | cons t ts =>
        have := t.size_pos
        simp only [sizes] at hn
        omega
    | succ n ih =>
      intro ts hn
      cases ts with
      | nil => exact nil
      | cons t ts =>
        have := t.size_eq
        simp only [sizes] at hn
        exact cons t ts (ih _ (by omega)) (ih _ (by omega)) (ih _ (by omega))
  exact hall _ ts (Nat.le_refl _)

theorem layout_eq (parent : Option NodeId) (first : Nat) (t : Tree) :
    t.layout targets parent first = layoutAll targets (t.top first) first t.lead ++
      t.head targets parent first :: layoutAll targets (t.top first) (t.top first + 1) t.rest := by
  cases t with
  | choice options position =>
    cases options with
    | nil => rfl
    | cons o os => simp [layout, head, kids, lead, rest, layoutAll, ids, top]
  | leaf | group | lookAhead => simp [layout, head, kids, lead, rest, parts, layoutAll, ids, top]

theorem length_layoutAll (parent next : Nat) (ts : List Tree) :
    (layoutAll targets parent next ts).length = sizes ts := by
  induction ts using row_induction generalizing parent next with
  | nil => rfl
  | cons t ts hlead hrest hts =>
    have := t.size_eq
    rw [layoutAll, layout_eq, sizes]
    simp only [List.length_append, List.length_cons, hlead, hrest, hts]
    omega

theorem length_layout (parent : Option NodeId) (first : Nat) (t : Tree) :
    (t.layout targets parent first).length = t.size := by
  have := t.size_eq
  rw [layout_eq]
  simp only [List.length_append, List.length_cons, length_layoutAll]
  omega

theorem ids_append (first : Nat) (ts us : List Tree) :
    ids first (ts ++ us) = ids first ts ++ ids (first + sizes ts) us := by
  induction ts generalizing first with
  | nil => rfl
  | cons t ts ih => rw [List.cons_append, ids, ids, ih, sizes, ← Nat.add_assoc, List.cons_append]

theorem layoutAll_append (parent next : Nat) (ts us : List Tree) :
    layoutAll targets parent next (ts ++ us) =
      layoutAll targets parent next ts ++ layoutAll targets parent (next + sizes ts) us := by
  induction ts generalizing next with
  | nil => rfl
  | cons t ts ih =>
    rw [List.cons_append, layoutAll, layoutAll, ih, sizes, ← Nat.add_assoc, List.append_assoc]

theorem top_bounds (first : Nat) (t : Tree) :
    first ≤ t.top first ∧ t.top first < first + t.size := by
  have := t.size_eq
  rw [top_eq]
  omega

/-- Trees laid out one behind the other get numbers in the range they cover together. -/
theorem mem_ids {c first : Nat} {ts : List Tree} (h : c ∈ ids first ts) :
    first ≤ c ∧ c < first + sizes ts := by
  induction ts generalizing first with
  | nil => cases h
  | cons t ts ih =>
    simp only [sizes]
    rcases List.mem_cons.1 h with rfl | h
    · have := t.top_bounds first
      omega
    · have := ih h
      omega

theorem nodup_ids (first : Nat) (ts : List Tree) : (ids first ts).Nodup := by
  induction ts generalizing first with
  | nil => exact .nil
  | cons t ts ih =>
    refine List.nodup_cons.2 ⟨fun hmem => ?_, ih _⟩
    have hle := (mem_ids hmem).1
    have hlt := (t.top_bounds first).2
    omega

theorem mem_kids {c first : Nat} {t : Tree} (h : c ∈ t.kids first) : c < first + t.size := by
  have hsize := t.size_eq
  have htop := t.top_eq first
  rcases List.mem_append.1 h with h | h
  · have := mem_ids h
    omega
  · have := mem_ids h
    omega

theorem nodup_kids (first : Nat) (t : Tree) : (t.kids first).Nodup := by
  refine List.nodup_append.2 ⟨nodup_ids _ _, nodup_ids _ _, fun c hc d hd => ?_⟩
  have hlead := mem_ids hc
  have hrest := mem_ids hd
  have htop := t.top_eq first
  exact Nat.ne_of_lt (by omega)

theorem children_head (parent : Option NodeId) (first : Nat) (t : Tree) :
    (t.head targets parent first).kind.children = t.kids first := by
  cases t with
  | leaf l => cases l <;> rfl
  | group | choice => rfl
  | lookAhead positive operand => rfl

theorem layoutAll_getElem? (parent next j : Nat) (ts : List Tree) (h : j < sizes ts) :
    ∃ t ∈ ts, ∃ (s : Tree) (p : Option NodeId) (first : Nat), Within s t ∧ next + j = s.top first ∧
      first + s.size ≤ next + sizes ts ∧
        (layoutAll targets parent next ts)[j]? = some (s.head targets p first) := by
  induction ts using row_induction generalizing parent next j with
  | nil => exact absurd h (Nat.not_lt_zero _)
  | cons t ts hlead hrest hts =>
    have hsize := t.size_eq
    have htop := t.top_eq next
    have hlen : (t.layout targets (some parent) next).length = t.size := length_layout _ _ _
    have hlen' : (layoutAll targets (t.top next) next t.lead).length = sizes t.lead :=
      length_layoutAll _ _ _
    simp only [sizes] at h ⊢
    rw [layoutAll]
    by_cases hj : j < t.size
    · rw [List.getElem?_append_left (by omega), layout_eq]
      rcases Nat.lt_trichotomy j (sizes t.lead) with hless | rfl | hmore
      · obtain ⟨u, hu, s, p, first, hs, hid, hstop, hget⟩ := hlead (t.top next) next j hless
        refine ⟨t, List.mem_cons_self, s, p, first, .part (mem_parts.2 (.inl hu)) hs, hid,
          by omega, ?_⟩
        rw [List.getElem?_append_left (by omega), hget]
      · refine ⟨t, List.mem_cons_self, t, some parent, next, .refl, htop.symm, by omega, ?_⟩
        rw [List.getElem?_append_right (by omega), hlen', Nat.sub_self]
        rfl
      · obtain ⟨u, hu, s, p, first, hs, hid, hstop, hget⟩ :=
          hrest (t.top next) (t.top next + 1) (j - sizes t.lead - 1) (by omega)
        refine ⟨t, List.mem_cons_self, s, p, first, .part (mem_parts.2 (.inr hu)) hs, by omega,
          by omega, ?_⟩
        obtain ⟨k, hk⟩ : ∃ k, j - sizes t.lead = k + 1 := ⟨j - sizes t.lead - 1, by omega⟩
        rw [List.getElem?_append_right (by omega), hlen', hk, List.getElem?_cons_succ]
        rwa [hk] at hget
    · obtain ⟨u, hu, s, p, first, hs, hid, hstop, hget⟩ :=
        hts parent (next + t.size) (j - t.size) (by omega)
      refine ⟨u, List.mem_cons_of_mem _ hu, s, p, first, hs, by omega, by omega, ?_⟩
      rw [List.getElem?_append_right (by omega), hlen, hget]

theorem mem_references_of_part {p t : Tree} {x : Position × String} (hp : p ∈ t.parts)
    (hx : x ∈ p.references) : x ∈ t.references := by
  have inList : ∀ ts : List Tree, p ∈ ts → x ∈ referencesOf ts := by
    intro ts
    induction ts with
    | nil => intro h; cases h
    | cons u us ih =>
      intro h
      rw [referencesOf, List.mem_append]
      rcases List.mem_cons.1 h with rfl | h
      · exact .inl hx
      · exact .inr (ih h)
  cases t with
  | leaf l tag => cases hp
  | group items tag => exact inList items hp
  | choice options position => exact inList options hp
  | lookAhead positive operand position =>
    obtain rfl : p = operand := List.mem_singleton.1 hp
    exact hx

theorem Within.mem_references {s t : Tree} {x : Position × String} (h : Within s t)
    (hx : x ∈ s.references) : x ∈ t.references := by
  induction h with
  | refl => exact hx
  | part hp _ ih => exact mem_references_of_part hp ih

theorem mem_referencesOf {t : Tree} {ts : List Tree} {x : Position × String} (ht : t ∈ ts)
    (hx : x ∈ t.references) : x ∈ referencesOf ts :=
  mem_references_of_part (t := .group ts (.bare .start)) ht hx

end Tree

namespace RuleTree

def head (id : NodeId) (r : RuleTree) : Node :=
  { Node.ofKind (.rule r.name (Tree.ids (id + 1) r.items)) r.position with label := some r.name }

def sizes : List RuleTree → Nat
  | [] => 0
  | r :: rules => r.size + sizes rules

theorem layout_eq (id : Nat) (r : RuleTree) :
    r.layout targets id = r.head id :: Tree.layoutAll targets id (id + 1) r.items := rfl

theorem length_layout (id : Nat) (r : RuleTree) : (r.layout targets id).length = r.size := by
  rw [layout_eq, List.length_cons, Tree.length_layoutAll, size, Nat.add_comm]

theorem length_layoutAll (next : Nat) (rules : List RuleTree) :
    (layoutAll targets next rules).length = sizes rules := by
  induction rules generalizing next with
  | nil => rfl
  | cons r rules ih => rw [layoutAll, List.length_append, length_layout, ih, sizes]

/-- What can stand at a number among the nodes of rules that end before `stop`. -/
inductive Laid (targets : String → Option NodeId) (rules : List RuleTree) (stop id : Nat) :
    Node → Prop
  | rule {r : RuleTree} : r ∈ rules → id + r.size ≤ stop → Laid targets rules stop id (r.head id)
  | tree {r : RuleTree} {t s : Tree} {parent : Option NodeId} {first : Nat} : r ∈ rules →
      t ∈ r.items → Tree.Within s t → id = s.top first → first + s.size ≤ stop →
      Laid targets rules stop id (s.head targets parent first)

theorem Laid.cons {rules : List RuleTree} {r : RuleTree} {stop id : Nat} {n : Node}
    (h : Laid targets rules stop id n) : Laid targets (r :: rules) stop id n := by
  cases h with
  | rule hr hs => exact .rule (List.mem_cons_of_mem _ hr) hs
  | tree hr ht hw hid hs => exact .tree (List.mem_cons_of_mem _ hr) ht hw hid hs

theorem Laid.child_lt {rules : List RuleTree} {stop id c : Nat} {n : Node}
    (h : Laid targets rules stop id n) (hc : c ∈ n.kind.children) : c < stop := by
  cases h with
  | rule _ hs =>
    have hlt := (Tree.mem_ids hc).2
    simp only [size] at hs
    omega
  | tree _ _ _ _ hs =>
    rw [Tree.children_head] at hc
    exact Nat.lt_of_lt_of_le (Tree.mem_kids hc) hs

theorem Laid.nodup_children {rules : List RuleTree} {stop id : Nat} {n : Node}
    (h : Laid targets rules stop id n) : n.kind.children.Nodup := by
  cases h with
  | rule => exact Tree.nodup_ids _ _
  | tree =>
    rw [Tree.children_head]
    exact Tree.nodup_kids _ _

/-- A reference that is laid out points where its name does, and is one of its rule's. -/
theorem Laid.reference {rules : List RuleTree} {stop id : Nat} {n : Node} {rule : String}
    {target : Option NodeId} (h : Laid targets rules stop id n)
    (hk : n.kind = .reference rule target) :
    target = targets rule ∧ ∃ r ∈ rules, ∃ position, (position, rule) ∈ r.references := by
  cases h with
  | rule => cases hk
  | @tree r t s parent first hr ht hw =>
    cases s with
    | leaf l tag =>
      cases l with
      | reference name =>
        obtain ⟨rfl, rfl⟩ := NodeKind.reference.inj hk
        have hown : (tag.position, name) ∈ (Tree.leaf (.reference name) tag).references := by
          simp [Tree.references]
        exact ⟨rfl, r, hr, tag.position, Tree.mem_referencesOf ht (hw.mem_references hown)⟩
      | _ => cases hk
    | _ => cases hk

theorem Laid.operand {rules : List RuleTree} {stop id : Nat} {n : Node} {positive : Bool}
    {operand : Option NodeId} (h : Laid targets rules stop id n)
    (hk : n.kind = .lookAhead positive operand) : ∃ o, operand = some o := by
  cases h with
  | rule => cases hk
  | @tree r t s parent first hr ht hw =>
    cases s with
    | leaf l tag => cases l <;> cases hk
    | lookAhead positive' inner position =>
      obtain ⟨-, rfl⟩ := NodeKind.lookAhead.inj hk
      exact ⟨_, rfl⟩
    | _ => cases hk

theorem layout_getElem? {r : RuleTree} (id j : Nat) (h : j < r.size) :
    ∃ n, (r.layout targets id)[j]? = some n ∧ Laid targets [r] (id + r.size) (id + j) n := by
  cases j with
  | zero => exact ⟨_, rfl, .rule List.mem_cons_self (by omega)⟩
  | succ j =>
    simp only [size] at h ⊢
    obtain ⟨t, ht, s, p, first, hs, hid, hstop, hget⟩ :=
      @Tree.layoutAll_getElem? targets id (id + 1) j r.items (by omega)
    exact ⟨_, hget, .tree List.mem_cons_self ht hs (by omega) (by omega)⟩

theorem layoutAll_getElem? {rules : List RuleTree} (next j : Nat) (h : j < sizes rules) :
    ∃ n, (layoutAll targets next rules)[j]? = some n ∧
      Laid targets rules (next + sizes rules) (next + j) n := by
  induction rules generalizing next j with
  | nil => simp [sizes] at h
  | cons r rules ih =>
    have hlen : (r.layout targets next).length = r.size := length_layout next r
    rw [sizes] at h ⊢
    rw [layoutAll]
    by_cases hj : j < r.size
    · obtain ⟨n, hget, hn⟩ := @layout_getElem? targets r next j hj
      refine ⟨n, by rw [List.getElem?_append_left (by omega), hget], ?_⟩
      cases hn with
      | rule hr hs =>
        obtain rfl := List.mem_singleton.1 hr
        exact .rule List.mem_cons_self (by omega)
      | tree hr ht hw hid hs =>
        obtain rfl := List.mem_singleton.1 hr
        exact .tree List.mem_cons_self ht hw hid (by omega)
    · obtain ⟨n, hget, hn⟩ := ih (next + r.size) (j - r.size) (by omega)
      refine ⟨n, by rw [List.getElem?_append_right (by omega), hlen, hget], ?_⟩
      rw [show next + (r.size + sizes rules) = next + r.size + sizes rules by omega,
        show next + j = next + r.size + (j - r.size) by omega]
      exact hn.cons

theorem mem_index {rules : List RuleTree} {next id : Nat} {name : String}
    (h : (name, id) ∈ index next rules) :
    ∃ r ∈ rules, r.name = name ∧ next ≤ id ∧ id < next + sizes rules ∧
      (layoutAll targets next rules)[id - next]? = some (r.head id) := by
  induction rules generalizing next with
  | nil => cases h
  | cons r rules ih =>
    have hlen : (r.layout targets next).length = r.size := length_layout next r
    have hpos : 0 < r.size := by simp only [size]; omega
    rw [sizes, layoutAll]
    rcases List.mem_cons.1 h with h | h
    · obtain ⟨rfl, rfl⟩ := Prod.mk.inj h
      refine ⟨r, List.mem_cons_self, rfl, Nat.le_refl _, by omega, ?_⟩
      rw [Nat.sub_self, List.getElem?_append_left (by omega)]
      rfl
    · obtain ⟨r', hr', hname, hle, hlt, hget⟩ := ih h
      refine ⟨r', List.mem_cons_of_mem _ hr', hname, by omega, by omega, ?_⟩
      rw [List.getElem?_append_right (by omega), hlen, Nat.sub_sub, hget]

end RuleTree

end Ebnf
