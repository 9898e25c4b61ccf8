import Ebnf.Proofs.Lexing
import Ebnf.Proofs.Syntax.Moved

/-! Sources cut up and put together again. A source is cut in front of the name of each rule; its
definitions may then stand in any order, with a line break behind each but the last, and they are
still read as what they were. -/

namespace Ebnf

namespace RuleTree

/-- Where the first of the definitions starts, or the end of the source. -/
def firstStart (source : List Char) : List RuleTree → Nat
  | [] => source.length
  | r :: _ => Offset.ofIndex source r.position.index

/-- The text of each definition, from its name up to the next one or to the end of the source. -/
def sections (source : List Char) : List RuleTree → List (List Char)
  | [] => []
  | r :: rs =>
    (source.take (firstStart source rs)).drop (firstStart source (r :: rs)) :: sections source rs

/-- A source with these definitions. -/
def joined (sections : List (List Char)) : String := String.ofList (['\n'].intercalate sections)

end RuleTree

variable {source : List Char} {k : Nat}

theorem Offset.ofIndex_position (hk : k ≤ source.length) :
    Offset.ofIndex source (Offset.position source k).index = k := by
  refine Cursor.ofIndex_eq hk (Nat.le_refl _) fun hless => ?_
  rw [List.take_succ_eq_append_getElem hless, byteCount_append]
  exact Nat.lt_add_of_pos_right (Nat.add_pos_left (Char.utf8Size_pos _) _)

namespace Span

variable {p : Span} {ps qs : List Span} {rest : List Char}

@[simp] theorem texts_append (ps qs : List Span) : texts (ps ++ qs) = texts ps ++ texts qs :=
  List.flatMap_append

theorem tokens_append (source : List Char) (k : Nat) (ps qs : List Span) :
    tokens source k (ps ++ qs) =
      tokens source k ps ++ tokens source (k + (texts ps).length) qs := by
  induction ps generalizing k with
  | nil => rfl
  | cons p ps ih =>
    rw [List.cons_append, tokens, ih, tokens, texts_cons, List.length_append, Nat.add_assoc]
    rfl

theorem exists_of_tokens_eq_append {ts us : List Token} (h : tokens source k ps = ts ++ us) :
    ∃ as bs, ps = as ++ bs ∧ ts = tokens source k as ∧
      us = tokens source (k + (texts as).length) bs := by
  induction ts generalizing k ps with
  | nil => exact ⟨[], ps, rfl, rfl, h.symm⟩
  | cons t ts ih =>
    cases ps with
    | nil => cases h
    | cons p ps =>
      obtain ⟨rfl, hrest⟩ := List.cons.inj h
      obtain ⟨as, bs, rfl, rfl, rfl⟩ := ih hrest
      refine ⟨p :: as, bs, rfl, rfl, ?_⟩
      rw [texts_cons, List.length_append, Nat.add_assoc]

theorem tokens_moved (source source' : List Char) (k k' j : Nat) (ps : List Span)
    (h : k + j + (texts ps).length ≤ source.length) :
    tokens source' (k' + j) ps = (tokens source (k + j) ps).map (Token.moved fun p =>
      Offset.position source' (Offset.ofIndex source p.index - k + k')) := by
  induction ps generalizing j with
  | nil => rfl
  | cons p ps ih =>
    rw [texts_cons, List.length_append] at h
    rw [tokens, tokens, List.map_cons, Token.moved, Offset.ofIndex_position (by omega),
      Nat.add_assoc, Nat.add_assoc, ih (j + p.text.length) (by omega),
      show k + j - k + k' = k' + j by omega]

def Define (source : List Char) (r : RuleTree) (ps : List Span) : Prop :=
  ∃ k, k + (texts ps).length ≤ source.length ∧ r.DefinedBy (tokens source k ps)

theorem Define.ne_nil {r : RuleTree} (h : Define source r ps) : ps ≠ [] := by
  rintro rfl
  obtain ⟨k, -, hr⟩ := h
  cases hr

theorem position_of_definedBy {r : RuleTree} (h : r.DefinedBy (tokens source k ps)) :
    r.position = Offset.position source k := by
  generalize hts : tokens source k ps = ts at h
  obtain ⟨-, hposition, -, -⟩ := h
  cases ps with
  | nil => cases hts
  | cons p ps =>
    obtain ⟨rfl, -⟩ := List.cons.inj hts
    exact hposition.symm

section Groups

variable {lead : List Char} {rules : List RuleTree} {groups : List (List Token)}

theorem firstStart_eq (hsource : source = lead ++ texts ps)
    (htokens : tokens source lead.length ps = groups.flatten)
    (hgroups : List.Forall₂ RuleTree.DefinedBy rules groups) :
    RuleTree.firstStart source rules = lead.length := by
  have hlength := congrArg List.length hsource
  rw [List.length_append] at hlength
  cases hgroups with
  | nil =>
    cases ps with
    | nil => exact hlength
    | cons => cases htokens
  | cons hr hgroups =>
    obtain ⟨as, bs, rfl, rfl, -⟩ := exists_of_tokens_eq_append htokens
    rw [RuleTree.firstStart, position_of_definedBy hr, Offset.ofIndex_position (by omega)]

theorem exists_define (hsource : source = lead ++ texts ps)
    (htokens : tokens source lead.length ps = groups.flatten)
    (hgroups : List.Forall₂ RuleTree.DefinedBy rules groups) :
    ∃ pss, ps = pss.flatten ∧ List.Forall₂ (Define source) rules pss ∧
      RuleTree.sections source rules = pss.map texts := by
  induction hgroups generalizing lead ps with
  | nil =>
    cases ps with
    | nil => exact ⟨[], rfl, .nil, rfl⟩
    | cons => cases htokens
  | @cons r ts rules groups hr hgroups ih =>
    have hstart := firstStart_eq hsource htokens (.cons hr hgroups)
    obtain ⟨as, bs, rfl, rfl, hrest⟩ := exists_of_tokens_eq_append htokens
    rw [texts_append, ← List.append_assoc] at hsource
    rw [← List.length_append] at hrest
    have hstop := firstStart_eq hsource hrest.symm hgroups
    obtain ⟨pss, rfl, hdefine, hsections⟩ := ih hsource hrest.symm
    have hlength := congrArg List.length hsource
    simp only [List.length_append] at hlength
    refine ⟨as :: pss, rfl, .cons ⟨lead.length, by omega, hr⟩ hdefine, ?_⟩
    have htext : (source.take (lead ++ texts as).length).drop lead.length = texts as := by
      rw [hsource, List.take_left, List.drop_left]
    rw [RuleTree.sections, hsections, hstart, hstop, htext]
    rfl

end Groups

def withBreak : List Span → List Span
  | [] => []
  | [p] => [{ p with trivia := p.trivia ++ ['\n'] }]
  | p :: q :: ps => p :: withBreak (q :: ps)

def joinAll : List (List Span) → List Span
  | [] => []
  | [ps] => ps
  | ps :: qs :: pss => withBreak ps ++ joinAll (qs :: pss)

theorem texts_withBreak (hps : ps ≠ []) : texts (withBreak ps) = texts ps ++ ['\n'] := by
  fun_induction withBreak ps with
  | case1 => exact absurd rfl hps
  | case2 p => simp [text]
  | case3 p q ps ih =>
    rw [texts_cons, ih (List.cons_ne_nil q ps), ← List.append_assoc, ← texts_cons]

theorem texts_joinAll {pss : List (List Span)} (h : ∀ ps ∈ pss, ps ≠ []) :
    texts (joinAll pss) = ['\n'].intercalate (pss.map texts) := by
  fun_induction joinAll pss with
  | case1 => rfl
  | case2 ps => simp [List.intercalate]
  | case3 ps qs pss ih =>
    obtain ⟨hps, hrest⟩ := List.forall_mem_cons.1 h
    rw [texts_append, texts_withBreak hps, ih hrest]
    simp [List.intercalate]

theorem tokens_withBreak (source : List Char) (k : Nat) (ps : List Span) :
    tokens source k (withBreak ps) = tokens source k ps := by
  fun_induction withBreak ps generalizing k with
  | case1 => rfl
  | case2 p => rfl
  | case3 p q ps ih => rw [tokens, ih, ← tokens]

theorem IsBefore.before_cons {c : Char} {rest' : List Char} (h : p.IsBefore (c :: rest)) :
    p.IsBefore (c :: rest') := by
  obtain ⟨hspelled, htrivia⟩ := h
  refine ⟨?_, htrivia.before_cons⟩
  cases htext : p.trivia <;> rwa [htext] at hspelled

theorem IsBefore.withBreak (h : p.IsBefore rest) (rest' : List Char) :
    IsBefore { p with trivia := p.trivia ++ ['\n'] } rest' := by
  obtain ⟨hspelled, htrivia⟩ := h
  refine ⟨?_, htrivia.atEnd.lineBreak⟩
  show p.lexeme.Spelled p.spelling (p.trivia ++ ['\n'] ++ rest').head?
  cases htext : p.trivia with
  | nil =>
    refine hspelled.beforeBreak fun c hc => ?_
    obtain rfl := Option.some.inj hc
    decide
  | cons c cs => rwa [htext] at hspelled

theorem IsBefore.atEnd (h : p.IsBefore rest) : p.IsBefore [] := by
  obtain ⟨hspelled, htrivia⟩ := h
  refine ⟨?_, htrivia.atEnd⟩
  cases htext : p.trivia with
  | nil => exact hspelled.beforeBreak (by simp)
  | cons c cs => rwa [htext] at hspelled

theorem Abut.exists_text_eq_cons (h : Abut (p :: ps)) : ∃ c cs, p.text = c :: cs := by
  cases h with
  | cons hp _ => exact List.exists_cons_of_length_pos hp.length_pos

theorem Abut.withBreak (h : Abut (ps ++ qs)) {rs : List Span} (hrs : Abut rs) :
    Abut (Span.withBreak ps ++ rs) := by
  fun_induction Span.withBreak ps with
  | case1 => exact hrs
  | case2 p =>
    cases h with
    | cons hp _ => exact .cons (hp.withBreak _) hrs
  | case3 p q ps ih =>
    cases h with
    | cons hp hrest =>
      refine .cons ?_ (ih hrest)
      obtain ⟨c, cs, htext⟩ := Abut.exists_text_eq_cons hrest
      rw [List.append_eq, texts_append, texts_cons, htext] at hp
      rw [List.append_eq, texts_append, texts_withBreak (List.cons_ne_nil q ps), texts_cons, htext]
      exact hp.before_cons

theorem Abut.atEnd (h : Abut (ps ++ qs)) : Abut ps := by
  induction ps with
  | nil => exact .nil
  | cons p ps ih =>
    cases h with
    | cons hp hrest =>
      refine .cons ?_ (ih hrest)
      cases ps with
      | nil => exact hp.atEnd
      | cons q ps =>
        obtain ⟨c, cs, htext⟩ := Abut.exists_text_eq_cons hrest
        rw [List.append_eq, texts_append, texts_cons, htext] at hp
        rw [texts_cons, htext]
        exact hp.before_cons

theorem Abut.of_append (h : Abut (ps ++ qs)) : Abut qs := by
  induction ps with
  | nil => exact h
  | cons p ps ih =>
    cases h with
    | cons _ hrest => exact ih hrest

theorem Abut.exists_of_mem {pss : List (List Span)} (h : Abut pss.flatten) (hps : ps ∈ pss) :
    ∃ qs, Abut (ps ++ qs) := by
  induction pss with
  | nil => cases hps
  | cons as pss ih =>
    rw [List.flatten_cons] at h
    rcases List.mem_cons.1 hps with rfl | hrest
    · exact ⟨_, h⟩
    · exact ih h.of_append hrest

theorem abut_joinAll {pss : List (List Span)} (h : ∀ ps ∈ pss, ∃ qs, Abut (ps ++ qs)) :
    Abut (joinAll pss) := by
  fun_induction joinAll pss with
  | case1 => exact .nil
  | case2 ps =>
    obtain ⟨qs, hps⟩ := h ps (List.mem_singleton_self ps)
    exact hps.atEnd
  | case3 ps qs pss ih =>
    obtain ⟨⟨_, hps⟩, hrest⟩ := List.forall_mem_cons.1 h
    exact hps.withBreak (ih hrest)

theorem Define.exists_moved {r : RuleTree} (h : Define source r ps) (source' : List Char)
    (k' : Nat) : ∃ r' : RuleTree, r'.unplaced = r.unplaced ∧
      r'.DefinedBy (tokens source' k' ps) := by
  obtain ⟨k, hlength, hr⟩ := h
  refine ⟨r.moved fun p => Offset.position source' (Offset.ofIndex source p.index - k + k'),
    RuleTree.unplaced_moved _ r, ?_⟩
  have hmoved := tokens_moved source source' k k' 0 ps hlength
  rw [Nat.add_zero, Nat.add_zero] at hmoved
  rw [hmoved]
  exact hr.moved _

theorem exists_groups_joinAll {rules : List RuleTree} {pss : List (List Span)}
    (h : List.Forall₂ (Define source) rules pss) (source' : List Char) (k' : Nat) :
    ∃ rules' groups, rules'.map RuleTree.unplaced = rules.map RuleTree.unplaced ∧
      List.Forall₂ RuleTree.DefinedBy rules' groups ∧
      tokens source' k' (joinAll pss) = groups.flatten := by
  induction h generalizing k' with
  | nil => exact ⟨[], [], rfl, .nil, rfl⟩
  | @cons r ps rules pss hr hrest ih =>
    obtain ⟨r', hsame, hr'⟩ := hr.exists_moved source' k'
    cases hrest with
    | nil => exact ⟨[r'], [_], congrArg ([·]) hsame, .cons hr' .nil, (List.append_nil _).symm⟩
    | @cons _ qs _ pss _ _ =>
      obtain ⟨rules', groups, hsames, hrules', htokens⟩ :=
        ih (k' + (texts (withBreak ps)).length)
      refine ⟨r' :: rules', _ :: groups, ?_, .cons hr' hrules', ?_⟩
      · rw [List.map_cons, hsame, hsames]
        rfl
      · rw [joinAll, tokens_append, tokens_withBreak, htokens]
        rfl

end Span

namespace RuleTree

theorem parse_joined {source : String} {rules : List RuleTree} (h : parse source = .ok rules)
    {order : List (List Char)} (horder : order.Perm (sections source.toList rules)) :
    ∃ rules', parse (joined order) = .ok rules' ∧ Reorders rules rules' := by
  obtain ⟨place, hplace⟩ := exists_place h
  obtain ⟨hrules, hnodup⟩ := (parse_eq_ok_iff hplace rules).1 h
  obtain ⟨lead, ps, hsource, hps, htokens⟩ := TokenStream.exists_spans hplace
  rw [htokens] at hrules
  obtain ⟨groups, hgroups, hdefined⟩ := hrules.exists_groups
  obtain ⟨pss, rfl, hdefine, hsections⟩ := Span.exists_define hsource hgroups hdefined
  -- the order of the texts is one of the spans, and that is one of the rules
  have htexts : List.Forall₂ (fun ps cs => Span.texts ps = cs) pss (pss.map Span.texts) := by
    rw [List.forall₂_map_right_iff, List.forall₂_same]
    exact fun _ _ => rfl
  rw [hsections] at horder
  obtain ⟨pss', htexts', hpss⟩ := List.perm_comp_forall₂ horder htexts.flip
  obtain ⟨ruleOrder, hdefine', hrulesOrder⟩ := List.perm_comp_forall₂ hpss hdefine.flip
  have hne : ∀ ps ∈ pss', ps ≠ [] := by
    intro ps hps
    obtain ⟨r, -, hr⟩ := exists_mem_of_forall₂ hdefine' hps
    exact Span.Define.ne_nil hr
  have habut := Span.abut_joinAll fun ps hmem => hps.exists_of_mem (hpss.subset hmem)
  have hmap : pss'.map Span.texts = order := by
    rw [← List.forall₂_eq_eq_eq, List.forall₂_map_left_iff]
    exact htexts'.flip
  have hjoined : (joined order).toList = Span.texts (Span.joinAll pss') := by
    rw [joined, String.toList_ofList, ← hmap, Span.texts_joinAll hne]
  obtain ⟨rules', groups', hsame, hdefined', htokens'⟩ :=
    Span.exists_groups_joinAll hdefine'.flip (joined order).toList 0
  have hread := TokenStream.ofString_of_abut hjoined .nil habut
  have hreorders : Reorders rules rules' := by
    rw [Reorders, hsame]
    exact hrulesOrder.symm.map unplaced
  refine ⟨rules', ?_, hreorders⟩
  refine (parse_eq_ok_iff (congrArg TokenStream.ending hread) rules').2 ⟨?_, ?_⟩
  · rw [hread]
    show Definitions (Span.tokens _ 0 _) rules'
    rw [htokens']
    exact Definitions.none.append hdefined'
  · exact hreorders.names.nodup_iff.1 hnodup

end RuleTree

end Ebnf
