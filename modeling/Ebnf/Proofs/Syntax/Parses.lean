import Ebnf.Proofs.Shape
import Ebnf.Proofs.Syntax.Derived

/-! A source whose tokens can be read defines exactly the rules that can be derived from them, as
long as no name is defined twice. -/

namespace Ebnf

namespace OpenRule

def header (r : OpenRule) : String × Position := (r.name, r.position)

@[simp] theorem header_add (r : OpenRule) (t : Tree) : (r.add t).header = r.header := by
  unfold add
  split <;> rfl

@[simp] theorem header_closeChoice (r : OpenRule) : r.closeChoice.header = r.header := by
  unfold closeChoice
  split
  · exact header_add _ _
  · rfl

@[simp] theorem header_attach (r : OpenRule) (t : Tree) (bar : Option Position) :
    (r.attach t bar).header = r.header := by
  simp only [attach]
  split
  · exact header_add _ _
  · exact (header_closeChoice _).trans (header_add _ _)
  · rfl
  · exact header_add _ _

@[simp] theorem header_settle (r : OpenRule) (bar : Option Position) :
    (r.settle bar).header = r.header := by
  unfold settle
  split
  · rfl
  all_goals exact header_attach ..

theorem header_closeGroup {r r' : OpenRule} {label : Option String} {position : Position}
    (h : r.closeGroup label position = .ok r') : r'.header = r.header := by
  simp only [closeGroup] at h
  split at h
  · cases h
    exact header_closeChoice r
  · cases h
  · cases h

theorem header_begin {r r' : OpenRule} {t : Token} (h : r.begin t = .ok r') :
    r'.header = r.header := by
  unfold begin at h
  cases hl : t.lexeme with
  | charClass source =>
    simp only [hl] at h
    split at h <;> cases h
    rfl
  | lookAhead positive =>
    simp only [hl] at h
    split at h <;> cases h
    rfl
  | closing label =>
    simp only [hl] at h
    exact header_closeGroup h
  | name | literal | cut | opening =>
    simp only [hl] at h
    cases h
    rfl
  | _ =>
    simp only [hl] at h
    cases h

theorem header_take {r r' : OpenRule} {t : Token} (h : r.take t = .ok r') :
    r'.header = r.header := by
  unfold take at h
  split at h
  · exact header_begin h
  · cases h
    exact header_settle ..
  · obtain ⟨u, -, rfl⟩ := map_eq_ok.1 h
    rfl
  · obtain ⟨u, -, rfl⟩ := map_eq_ok.1 h
    rfl
  · exact (header_begin h).trans (header_settle ..)

theorem addAll_start (name : String) (position : Position) (items : List Tree) :
    (start name position).addAll items = { start name position with items := items.reverse } := by
  have hall : ∀ held : List Tree, ({ start name position with items := held } : OpenRule).addAll
      items = { start name position with items := items.reverse ++ held } := by
    induction items with
    | nil => exact fun held => rfl
    | cons t items ih =>
      intro held
      rw [List.reverse_cons, List.append_assoc]
      exact ih (t :: held)
  rw [← List.append_nil items.reverse]
  exact hall []

end OpenRule

namespace Builder

variable {b b' : Builder} {ts us : List Token}

def Reads : Builder → List Token → Prop
  | idle, ts => ts = []
  | named word position, ts => ∃ t, ts = [t] ∧ t.lexeme = .name word ∧ t.position = position
  | inRule done r, ts => ∃ before name define us, ts = before ++ name :: define :: us ∧
      Definitions before done.reverse ∧ name.lexeme = .name r.name ∧ name.position = r.position ∧
        define.lexeme = .define ∧ r.Reads us ∧ (r.name :: done.map RuleTree.name).Nodup

/-- A rule is opened where the ones before are all defined and called otherwise. -/
theorem reads_openRule {done : List RuleTree} (hdone : Definitions ts done.reverse)
    (hnodup : (done.map RuleTree.name).Nodup) {name define : Token} {word : String}
    (hname : name.lexeme = .name word) (hdefine : define.lexeme = .define)
    (hok : openRule done word name.position = .ok b) : b.Reads (ts ++ [name, define]) := by
  unfold openRule at hok
  split at hok
  · cases hok
  · next hfresh =>
    cases hok
    refine ⟨ts, name, define, [], rfl, hdone, hname, rfl, hdefine, ?_, ?_⟩
    · exact OpenRule.Settles.reads (.rule .none) rfl
    · refine List.nodup_cons.2 ⟨fun hmem => hfresh ?_, hnodup⟩
      obtain ⟨r, hr, hword⟩ := List.mem_map.1 hmem
      exact List.any_eq_true.2 ⟨r, hr, decide_eq_true hword⟩

theorem definitions_concat {done : List RuleTree} {r : OpenRule} {before : List Token}
    {name define : Token} (hdone : Definitions before done.reverse)
    (hname : name.lexeme = .name r.name) (hposition : name.position = r.position)
    (hdefine : define.lexeme = .define) (hsettles : r.Settles us) (hframes : r.frames = []) :
    Definitions (before ++ name :: define :: us) (r.finished :: done).reverse := by
  unfold OpenRule.Settles at hsettles
  rw [hframes] at hsettles
  cases hsettles with
  | rule hitems =>
    rw [List.reverse_cons, OpenRule.finished, ← hposition]
    exact .more hdone hname hdefine hitems

theorem Reads.step (h : b.Reads ts) {token : Token} (hok : b.step token = .ok b') :
    b'.Reads (ts ++ [token]) := by
  cases b with
  | idle =>
    obtain rfl : ts = [] := h
    simp only [Builder.step] at hok
    split at hok
    · next hl =>
      cases hok
      exact ⟨token, rfl, hl, rfl⟩
    · cases hok
  | named word position =>
    obtain ⟨name, rfl, hname, rfl⟩ := h
    simp only [Builder.step] at hok
    split at hok
    · next hl =>
      have hnone : Definitions [] ([] : List RuleTree).reverse := .none
      exact reads_openRule hnone List.nodup_nil hname hl hok
    · cases hok
  | inRule done r =>
    obtain ⟨before, name, define, us, rfl, hdone, hname, hposition, hdefine, hreads, hnodup⟩ := h
    simp only [Builder.step] at hok
    split at hok
    · next word position hpending hl =>
      split at hok
      · next hframes =>
        -- the pending name belongs to the next rule
        obtain ⟨rest, held, rfl, hsettles, hspells⟩ := hreads
        rw [hpending] at hspells
        cases hspells with
        | @name _ token' hl' =>
          have hrule := definitions_concat hdone hname hposition hdefine hsettles
            (List.isEmpty_iff.1 hframes)
          have hopen := reads_openRule hrule hnodup hl' hl hok
          simpa using hopen
      · cases hok
    · obtain ⟨r', htake, rfl⟩ := map_eq_ok.1 hok
      obtain ⟨hword, hplace⟩ := Prod.mk.inj (OpenRule.header_take htake)
      refine ⟨before, name, define, us ++ [token], by simp, hdone, ?_, ?_, hdefine,
        hreads.take htake, ?_⟩
      · rw [hname, hword]
      · rw [hposition, hplace]
      · rwa [hword]

theorem Reads.foldlM (h : b.Reads ts) (hok : us.foldlM Builder.step b = .ok b') :
    b'.Reads (ts ++ us) := by
  induction us generalizing b ts with
  | nil =>
    cases hok
    rwa [List.append_nil]
  | cons t us ih =>
    rw [List.foldlM_cons] at hok
    cases hstep : b.step t with
    | error e => simp [hstep, bind, Except.bind] at hok
    | ok next =>
      rw [hstep] at hok
      have := ih (h.step hstep) hok
      rwa [List.append_assoc] at this

theorem Reads.finish (h : b.Reads ts) {place : Position} {trees : List RuleTree}
    (hok : b.finish place = .ok trees) :
    Definitions ts trees ∧ (trees.map RuleTree.name).Nodup := by
  cases b with
  | idle =>
    obtain rfl : ts = [] := h
    cases hok
    exact ⟨.none, List.nodup_nil⟩
  | named => cases hok
  | inRule done r =>
    obtain ⟨before, name, define, us, rfl, hdone, hname, hposition, hdefine, hreads, hnodup⟩ := h
    obtain ⟨hword, hplace⟩ := Prod.mk.inj (r.header_settle none)
    simp only [Builder.finish] at hok
    split at hok
    · next hframes =>
      cases hok
      rw [← hword] at hname hnodup
      rw [← hplace] at hposition
      refine ⟨definitions_concat hdone hname hposition hdefine hreads.settle_none
        (List.isEmpty_iff.1 hframes), ?_⟩
      rw [List.map_reverse]
      exact (List.reverse_perm _).nodup_iff.2 hnodup
    · cases hok

/-- The rules that a builder would finish with. -/
def Holds (b : Builder) (rules : List RuleTree) : Prop :=
  b = idle ∧ rules = [] ∨ ∃ done r, b = inRule done r ∧ (r.settle none).frames = [] ∧
    ((r.settle none).finished :: done).reverse = rules

theorem Holds.finish {rules : List RuleTree} (h : b.Holds rules) (place : Position) :
    b.finish place = .ok rules := by
  rcases h with ⟨rfl, rfl⟩ | ⟨done, r, rfl, hframes, rfl⟩
  · rfl
  · simp [Builder.finish, hframes]

theorem foldlM_step_inRule (done : List RuleTree) (r : OpenRule)
    (h : ∀ t ∈ us, t.lexeme ≠ .define) :
    us.foldlM Builder.step (inRule done r) = (r.takeAll us).map (inRule done) := by
  induction us generalizing r with
  | nil => rfl
  | cons t us ih =>
    obtain ⟨ht, hus⟩ := List.forall_mem_cons.1 h
    have hstep : Builder.step (inRule done r) t = (r.take t).map (inRule done) := by
      simp only [Builder.step]
      split
      · next hl => exact absurd hl ht
      · rfl
    rw [List.foldlM_cons, hstep, OpenRule.takeAll_cons]
    cases r.take t with
    | error e => rfl
    | ok r' => exact ih r' hus

theorem openRule_eq_ok {done : List RuleTree} {word : String} (position : Position)
    (h : word ∉ done.map RuleTree.name) :
    openRule done word position = .ok (inRule done (.start word position)) := by
  rw [openRule, if_neg]
  intro hany
  obtain ⟨r, hr, hword⟩ := List.any_eq_true.1 hany
  exact h (List.mem_map.2 ⟨r, hr, of_decide_eq_true hword⟩)

theorem Holds.openRule {rules : List RuleTree} (h : b.Holds rules) {name define : Token}
    {word : String} (hname : name.lexeme = .name word) (hdefine : define.lexeme = .define)
    (hfresh : word ∉ rules.map RuleTree.name) :
    [name, define].foldlM Builder.step b =
      .ok (inRule rules.reverse (.start word name.position)) := by
  rcases h with ⟨rfl, rfl⟩ | ⟨done, r, rfl, hframes, rfl⟩
  · have hfirst : Builder.step idle name = .ok (named word name.position) := by
      simp only [Builder.step, hname]
    have hsecond : Builder.step (named word name.position) define =
        .ok (inRule [] (.start word name.position)) := by
      simp only [Builder.step, hdefine]
      exact openRule_eq_ok name.position hfresh
    simp [hfirst, hsecond, bind, Except.bind, pure, Except.pure]
  · have hfirst : Builder.step (inRule done r) name =
        .ok (inRule done { r.settle none with pending := .name word name.position }) := by
      have htake : r.take name =
          .ok { r.settle none with pending := .name word name.position } := by
        rw [OpenRule.take_eq_begin r (by rw [hname]; exact nofun) (by rw [hname]; rfl),
          OpenRule.begin, hname]
      simp [Builder.step, hname, htake, Except.map]
    have hsecond : Builder.step
        (inRule done { r.settle none with pending := .name word name.position }) define =
          .ok (inRule ((r.settle none).finished :: done) (.start word name.position)) := by
      simp only [Builder.step, hdefine, hframes, List.isEmpty_nil, if_true]
      refine openRule_eq_ok name.position fun hmem => hfresh ?_
      rw [List.map_reverse, List.mem_reverse]
      exact hmem
    simp [hfirst, hsecond, bind, Except.bind, pure, Except.pure]

theorem holds_of_definitions {rules : List RuleTree} (h : Definitions ts rules)
    (hnodup : (rules.map RuleTree.name).Nodup) :
    ∃ b, ts.foldlM Builder.step idle = .ok b ∧ b.Holds rules := by
  induction h with
  | none => exact ⟨idle, rfl, .inl ⟨rfl, rfl⟩⟩
  | @more name define word ts us rules items _ hname hdefine hitems ih =>
    rw [List.map_append, List.map_singleton] at hnodup
    obtain ⟨hrules, -, hdisjoint⟩ := List.nodup_append.1 hnodup
    have hfresh : word ∉ rules.map RuleTree.name := fun hmem =>
      hdisjoint word hmem word (List.mem_singleton_self word) rfl
    obtain ⟨b, hfold, hholds⟩ := ih hrules
    obtain ⟨r, htake, hsettle⟩ :=
      OpenRule.builds hitems (.start word name.position) rfl trivial
    refine ⟨inRule rules.reverse r, ?_, .inr ⟨_, r, rfl, ?_, ?_⟩⟩
    · have hopen := hholds.openRule hname hdefine hfresh
      rw [foldlM_append_of_ok hfold, show name :: define :: us = [name, define] ++ us from rfl,
        foldlM_append_of_ok hopen, foldlM_step_inRule _ _ hitems.lexeme_ne_define, htake]
      rfl
    · rw [hsettle, OpenRule.addAll_start]
      rfl
    · rw [hsettle, OpenRule.addAll_start, List.reverse_cons, List.reverse_reverse]
      simp [OpenRule.finished, OpenRule.start]

end Builder

namespace RuleTree

/-- A source without faulty tokens is parsed to the rules that are derived from its tokens, and
only if each has a name of its own. -/
theorem parse_eq_ok_iff {source : String} {place : Position}
    (h : (TokenStream.ofString source).ending = .ok place) (rules : List RuleTree) :
    parse source = .ok rules ↔
      Definitions (TokenStream.ofString source).tokens rules ∧ (rules.map name).Nodup := by
  have hparse : parse source = (TokenStream.ofString source).tokens.foldlM Builder.step .idle >>=
      fun b => b.finish place := by
    simp [parse, h, bind, Except.bind]
  rw [hparse]
  constructor
  · intro hok
    cases hfold : (TokenStream.ofString source).tokens.foldlM Builder.step .idle with
    | error e => simp [hfold, bind, Except.bind] at hok
    | ok b =>
      rw [hfold] at hok
      have hreads : Builder.idle.Reads [] := rfl
      exact (hreads.foldlM hfold).finish hok
  · rintro ⟨hrules, hnodup⟩
    obtain ⟨b, hfold, hholds⟩ := Builder.holds_of_definitions hrules hnodup
    rw [hfold]
    exact hholds.finish place

/-- The parser accepts the grammar of grammars and builds what is derived: a source without faulty
tokens has exactly the rules that are derived from its tokens, under names of their own, and the
node graph of its grammar shows these rules in the order of their definitions. -/
theorem parse_iff_derived {source : String} {place : Position}
    (h : (TokenStream.ofString source).ending = .ok place) :
    (∀ rules, parse source = .ok rules ↔
      Definitions (TokenStream.ofString source).tokens rules ∧ (rules.map name).Nodup) ∧
    ∀ settings g, Grammar.parse source settings = .ok g →
      ∃ rules, parse source = .ok rules ∧ List.Forall₂ g.ShowsRule g.rules rules := by
  refine ⟨parse_eq_ok_iff h, fun settings g hparse => ?_⟩
  obtain ⟨rules, hrules, htrees⟩ := Grammar.exists_trees hparse
  exact ⟨rules, hrules, Grammar.showsRule_ofTrees htrees⟩

/-- A look-ahead, an option behind it, a group that ends in a bar, and a label behind its
quantifier. -/
theorem parse_iff_derived_trailing : ∃ place rules,
    (TokenStream.ofString "A ::= &B | (\"x\" | )+.n B  B ::= [a-c]*").ending = .ok place ∧
      parse "A ::= &B | (\"x\" | )+.n B  B ::= [a-c]*" = .ok rules ∧
        Definitions (TokenStream.ofString "A ::= &B | (\"x\" | )+.n B  B ::= [a-c]*").tokens rules ∧
          rules.map name = ["A", "B"] := by
  have hending : ∃ place, (TokenStream.ofString
      "A ::= &B | (\"x\" | )+.n B  B ::= [a-c]*").ending = .ok place := ⟨_, rfl⟩
  have hnames : (parse "A ::= &B | (\"x\" | )+.n B  B ::= [a-c]*").toOption.map (List.map name) =
      some ["A", "B"] := by decide +kernel
  obtain ⟨place, hplace⟩ := hending
  obtain ⟨rules, hparse, hnames⟩ := Option.map_eq_some_iff.1 hnames
  have hparse := toOption_eq_some.1 hparse
  have hderived := ((parse_iff_derived hplace).1 rules).1 hparse
  exact ⟨place, rules, hplace, hparse, hderived.1, hnames⟩

end RuleTree

end Ebnf
