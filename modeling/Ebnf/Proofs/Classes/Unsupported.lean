import Ebnf.Proofs.Classes.Items
import Ebnf.Proofs.Classes.Tokens

/-! Escapes that are not supported. One that stands where an item starts has its class refused. One
that ends a range does not: there it stands for its character, as any other escape does, and only
the order of the ends can still refuse it. -/

namespace Ebnf

/-- The letters whose escapes are not supported. -/
def unsupportedLetters : List Char := ['S', 'W', 'D', 'b', 'c', 'x', 'u', 'p']

namespace ClassAtom

theorem refused_of_unsupported {c : Char} (h : c ∈ unsupportedLetters) :
    ∃ f, (f = .negatedShorthand ∨ f = .unsupportedEscape) ∧ (escaped c).meaning = .refused f := by
  have hletter : c ∈ ['S', 'W', 'D'] ∨ c ∈ ['b', 'c', 'x', 'u', 'p'] := List.mem_append.1 h
  rcases hletter with hc | hc
  · exact ⟨_, .inl rfl, meaning_eq_refused.2 (.inl ⟨hc, rfl⟩)⟩
  · exact ⟨_, .inr rfl, meaning_eq_refused.2 (.inr ⟨hc, rfl⟩)⟩

end ClassAtom

namespace ClassItem

variable {before behind atoms : List ClassAtom} {e : ClassAtom} {f : ClassFault}
  {items : List ClassItem}

theorem ofAtoms_of_reads_refused (h : Reads atoms items (e :: behind))
    (he : e.meaning = .refused f) : ofAtoms true atoms = .error f := by
  rw [ofAtoms_of_reads h, ofAtoms_refused he]
  rfl

/-- The items read from the atoms have a range that ends with `e`, and `behind` lies behind it. -/
def EndsRange (e : ClassAtom) (behind atoms : List ClassAtom) (items : List ClassItem) : Prop :=
  ∃ a first front back, items = front ++ .range first e.char :: back ∧
    a.meaning = .literal first ∧ first ≤ e.char ∧
    Reads atoms front (a :: .plain '-' :: e :: behind) ∧ Reads behind back []

theorem EndsRange.cons {i : ClassItem} {atoms' : List ClassAtom}
    (h : EndsRange e behind atoms items)
    (hitem : ∀ {items rest}, Reads atoms items rest → Reads atoms' (i :: items) rest) :
    EndsRange e behind atoms' (i :: items) := by
  obtain ⟨a, first, front, back, rfl, hmeaning, horder, hfront, hback⟩ := h
  exact ⟨a, first, i :: front, back, rfl, hmeaning, horder, hitem hfront, hback⟩

theorem EndsRange.reads (h : EndsRange e behind atoms items) : Reads atoms items [] := by
  obtain ⟨a, first, front, back, rfl, hmeaning, horder, hfront, hback⟩ := h
  exact hfront.append (.range hmeaning horder hback)

theorem EndsRange.ne_nil (h : EndsRange e behind atoms items) : items ≠ [] := by
  obtain ⟨a, first, front, back, rfl, -⟩ := h
  simp

theorem endsRange_of_reads (h : Reads (before ++ e :: behind) items [])
    (he : e.meaning = .refused f) : EndsRange e behind (before ++ e :: behind) items := by
  generalize hatoms : before ++ e :: behind = atoms at h ⊢
  generalize hrest : ([] : List ClassAtom) = rest at h
  induction h generalizing before with
  | done =>
    subst hrest
    exact absurd hatoms (by simp)
  | shorthand hmeaning hreads ih =>
    cases before with
    | nil =>
      cases hatoms
      exact absurd (he.symm.trans hmeaning) nofun
    | cons b before =>
      cases hatoms
      exact (ih rfl hrest).cons (.shorthand hmeaning)
  | single hmeaning hdash hreads ih =>
    cases before with
    | nil =>
      cases hatoms
      exact absurd (he.symm.trans hmeaning) nofun
    | cons b before =>
      cases hatoms
      exact (ih rfl hrest).cons (.single hmeaning hdash)
  | range hmeaning horder hreads ih =>
    -- only the third of the atoms that make a range can be this one
    match before with
    | [] =>
      cases hatoms
      exact absurd (he.symm.trans hmeaning) nofun
    | [b] =>
      cases hatoms
      exact absurd he nofun
    | [b, dash] =>
      cases hatoms
      subst hrest
      exact ⟨_, _, [], _, rfl, hmeaning, horder, .done, hreads⟩
    | b :: dash :: d :: before =>
      cases hatoms
      exact (ih rfl hrest).cons (.range hmeaning horder)

end ClassItem

namespace CharClass

variable {source text : String} {place : Position} {before behind : List ClassAtom} {c : Char}

/-- A class with an escape that is not supported. Where an item starts, the escape has the class
refused; and the class is accepted just when the escape ends a range that starts with no greater
character, and everything else can be read. -/
theorem parse_unsupported (h : Lexer.Returns source ⟨.charClass text, place⟩)
    (hatoms : (ClassBody.read text.toList.tail).atoms = before ++ .escaped c :: behind)
    (hc : c ∈ unsupportedLetters) :
    (∀ items, ClassItem.Reads (before ++ .escaped c :: behind) items (.escaped c :: behind) →
      ∃ f, (f = .negated ∨ f = .negatedShorthand ∨ f = .unsupportedEscape) ∧
        parse text = .error f) ∧
    ∀ set, parse text = .ok set ↔ before.head? ≠ some (.plain '^') ∧
      ∃ items, ClassItem.EndsRange (.escaped c) behind (before ++ .escaped c :: behind) items ∧
        set = ⟨text, partsOf items⟩ := by
  obtain ⟨atoms, hinside, htext⟩ := h.isClassText
  obtain ⟨f, hf, hrefused⟩ := ClassAtom.refused_of_unsupported hc
  have hsame : atoms = before ++ .escaped c :: behind := by
    rw [← hatoms, htext, List.tail_cons, ClassBody.read_append hinside]
  subst hsame
  have hsign : (before ++ .escaped c :: behind).head? = some (.plain '^') ↔
      before.head? = some (.plain '^') := by
    cases before <;> simp
  constructor
  · intro items hreads
    rw [parse_spelled hinside htext, ClassItem.ofAtoms_of_reads_refused hreads hrefused]
    split
    · exact ⟨_, .inl rfl, rfl⟩
    · exact ⟨f, .inr hf, rfl⟩
  · intro set
    rw [parse_spelled_eq_ok hinside htext, ne_eq, not_congr hsign]
    refine and_congr_right fun _ => exists_congr fun items => ?_
    constructor
    · rintro ⟨-, hreads, rfl⟩
      exact ⟨ClassItem.endsRange_of_reads hreads hrefused, rfl⟩
    · rintro ⟨hends, rfl⟩
      exact ⟨hends.ne_nil, hends.reads, rfl⟩

/-- The escape ends a range between other items. -/
theorem parse_unsupported_rangeEnd :
    Lexer.Returns "A ::= [\\dA-\\S_]" ⟨.charClass "[\\dA-\\S_]", ⟨6, 0, 6⟩⟩ ∧
    ∃ set, parse "[\\dA-\\S_]" = .ok set ∧
      set = ⟨"[\\dA-\\S_]", partsOf [.shorthand .digit, .range 'A' 'S', .single '_']⟩ := by
  have h : Lexer.Returns "A ::= [\\dA-\\S_]" ⟨.charClass "[\\dA-\\S_]", ⟨6, 0, 6⟩⟩ :=
    ⟨_, .next (.next .start), .inl rfl⟩
  have hatoms : (ClassBody.read "[\\dA-\\S_]".toList.tail).atoms =
      [.escaped 'd', .plain 'A', .plain '-'] ++ .escaped 'S' :: [.plain '_'] := rfl
  have hends : ClassItem.EndsRange (.escaped 'S') [.plain '_']
      ([.escaped 'd', .plain 'A', .plain '-'] ++ .escaped 'S' :: [.plain '_'])
      [.shorthand .digit, .range 'A' 'S', .single '_'] :=
    ⟨.plain 'A', 'A', [.shorthand .digit], [.single '_'], rfl, rfl, by decide,
      .shorthand rfl .done, .single rfl nofun .done⟩
  exact ⟨h, _, ((parse_unsupported h hatoms (by decide)).2 _).2 ⟨by decide, _, hends, rfl⟩, rfl⟩

/-- Not every class with such an escape is refused. -/
theorem not_forall_unsupported_refused : ¬ ∀ (source text : String) (place : Position) (c : Char),
    Lexer.Returns source ⟨.charClass text, place⟩ →
    .escaped c ∈ (ClassBody.read text.toList.tail).atoms → c ∈ unsupportedLetters →
    ∃ f, parse text = .error f := by
  intro hall
  have h : Lexer.Returns "A ::= [A-\\S]" ⟨.charClass "[A-\\S]", ⟨6, 0, 6⟩⟩ :=
    ⟨_, .next (.next .start), .inl rfl⟩
  obtain ⟨f, hf⟩ := hall _ _ _ 'S' h (by decide) (by decide)
  have hset : parse "[A-\\S]" = .ok ⟨"[A-\\S]", [.range 'A' 'S']⟩ := rfl
  rw [hset] at hf
  cases hf

end CharClass

end Ebnf
