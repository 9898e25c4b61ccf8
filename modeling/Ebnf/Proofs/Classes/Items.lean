import Ebnf.Proofs.Chance.Draw
import Ebnf.Proofs.Lexing.Spelling

/-! The items of a class. Its atoms are read as items from the left; where an item ends may depend
on the atom behind it, since a dash makes a literal the start of a range. A class is accepted just
when its atoms can be read so to the end, when there are some, and when it does not start with the
sign of a negated one. -/

namespace Ebnf

/-- The atoms are read as items up to the rest. -/
inductive ClassItem.Reads : List ClassAtom → List ClassItem → List ClassAtom → Prop
  | done {rest : List ClassAtom} : Reads rest [] rest
  | shorthand {a : ClassAtom} {s : Shorthand} {atoms rest : List ClassAtom}
      {items : List ClassItem} (hmeaning : a.meaning = .shorthand s) :
      Reads atoms items rest → Reads (a :: atoms) (.shorthand s :: items) rest
  | single {a : ClassAtom} {c : Char} {atoms rest : List ClassAtom} {items : List ClassItem}
      (hmeaning : a.meaning = .literal c) (hdash : atoms.head? ≠ some (.plain '-')) :
      Reads atoms items rest → Reads (a :: atoms) (.single c :: items) rest
  | range {a e : ClassAtom} {first : Char} {atoms rest : List ClassAtom} {items : List ClassItem}
      (hmeaning : a.meaning = .literal first) (horder : first ≤ e.char) :
      Reads atoms items rest →
      Reads (a :: .plain '-' :: e :: atoms) (.range first e.char :: items) rest

theorem ClassAtom.meaning_eq_refused {c : Char} {f : ClassFault} :
    (escaped c).meaning = .refused f ↔ c ∈ ['S', 'W', 'D'] ∧ f = .negatedShorthand ∨
      c ∈ ['b', 'c', 'x', 'u', 'p'] ∧ f = .unsupportedEscape := by
  constructor
  · intro h
    dsimp only [meaning] at h
    split at h <;> cases h <;> simp
  · simp only [List.mem_cons, List.not_mem_nil, or_false]
    rintro (⟨rfl | rfl | rfl, rfl⟩ | ⟨rfl | rfl | rfl | rfl | rfl, rfl⟩) <;> rfl

namespace ClassItem

variable {closed : Bool} {a e : ClassAtom} {atoms rest : List ClassAtom} {items : List ClassItem}

theorem ofAtoms_refused {f : ClassFault} (h : a.meaning = .refused f) :
    ofAtoms closed (a :: atoms) = .error f := by
  rw [ofAtoms, h]

theorem ofAtoms_shorthand {s : Shorthand} (h : a.meaning = .shorthand s) :
    ofAtoms closed (a :: atoms) = (ofAtoms closed atoms).map (shorthand s :: ·) := by
  rw [ofAtoms, h]

theorem ofAtoms_single {c : Char} (h : a.meaning = .literal c)
    (hdash : atoms.head? ≠ some (.plain '-')) :
    ofAtoms closed (a :: atoms) = (ofAtoms closed atoms).map (single c :: ·) := by
  rw [ofAtoms, h]
  dsimp only
  split
  · exact absurd rfl hdash
  · exact absurd rfl hdash
  · rfl

theorem ofAtoms_range {first : Char} (h : a.meaning = .literal first) :
    ofAtoms closed (a :: .plain '-' :: e :: atoms) =
      if e.char < first then .error .rangeOrder
      else (ofAtoms closed atoms).map (range first e.char :: ·) := by
  rw [ofAtoms, h]
  rfl

/-- A dash is there with nothing behind it or with something. -/
theorem head?_ne_dash (hlast : atoms ≠ [.plain '-'])
    (hmore : ∀ e rest, atoms ≠ .plain '-' :: e :: rest) : atoms.head? ≠ some (.plain '-') := by
  intro hdash
  obtain ⟨behind, rfl⟩ := List.head?_eq_some_iff.1 hdash
  cases behind with
  | nil => exact hlast rfl
  | cons e behind => exact hmore e behind rfl

theorem ofAtoms_of_reads (h : Reads atoms items rest) :
    ofAtoms closed atoms = (ofAtoms closed rest).map (items ++ ·) := by
  have cons (i : ClassItem) (items : List ClassItem) (x : Except ClassFault (List ClassItem)) :
      (x.map (items ++ ·)).map (i :: ·) = x.map (i :: items ++ ·) := by
    cases x <;> rfl
  induction h with
  | done => cases ofAtoms closed _ <;> rfl
  | shorthand hmeaning _ ih => rw [ofAtoms_shorthand hmeaning, ih, cons]
  | single hmeaning hdash _ ih => rw [ofAtoms_single hmeaning hdash, ih, cons]
  | range hmeaning horder _ ih =>
    rw [ofAtoms_range hmeaning, if_neg (Char.not_lt.2 horder), ih, cons]

theorem reads_of_ofAtoms (h : ofAtoms closed atoms = .ok items) : Reads atoms items [] := by
  have cons {i : ClassItem} {x : Except ClassFault (List ClassItem)} {items : List ClassItem}
      (hx : x.map (i :: ·) = .ok items) : ∃ behind, x = .ok behind ∧ items = i :: behind := by
    cases x with
    | error => cases hx
    | ok behind => exact ⟨behind, rfl, (Except.ok.inj hx).symm⟩
  fun_induction ofAtoms closed atoms generalizing items with
  | case1 =>
    cases h
    exact .done
  | case2 | case3 | case5 | case6 => cases h
  | case4 _ _ _ hmeaning ih =>
    obtain ⟨behind, hbehind, rfl⟩ := cons h
    exact .shorthand hmeaning (ih hbehind)
  | case7 _ _ hmeaning _ _ hlt ih =>
    obtain ⟨behind, hbehind, rfl⟩ := cons h
    exact .range hmeaning (Char.not_lt.1 hlt) (ih hbehind)
  | case8 _ _ hmeaning _ hlast hmore ih =>
    obtain ⟨behind, hbehind, rfl⟩ := cons h
    exact .single hmeaning (head?_ne_dash hlast hmore) (ih hbehind)

theorem ofAtoms_eq_ok : ofAtoms true atoms = .ok items ↔ Reads atoms items [] := by
  refine ⟨reads_of_ofAtoms, fun h => ?_⟩
  rw [ofAtoms_of_reads h]
  exact congrArg Except.ok (List.append_nil items)

theorem Reads.append {items' : List ClassItem} {behind : List ClassAtom}
    (h : Reads atoms items rest) (h' : Reads rest items' behind) :
    Reads atoms (items ++ items') behind := by
  induction h with
  | done => exact h'
  | shorthand hmeaning _ ih => exact .shorthand hmeaning (ih h')
  | single hmeaning hdash _ ih => exact .single hmeaning hdash (ih h')
  | range hmeaning horder _ ih => exact .range hmeaning horder (ih h')

end ClassItem

namespace CharClass

variable {text : String} {cs : List Char} {atoms : List ClassAtom}

theorem parse_bracket (h : text.toList = '[' :: cs) :
    parse text = if cs.head? = some '^' then .error .negated else
      (ClassItem.ofAtoms (ClassBody.read cs).closed (ClassBody.read cs).atoms).bind fun items =>
        if items.isEmpty then .error .empty else .ok ⟨text, partsOf items⟩ := by
  rw [parse, h]
  split
  · next heq =>
    obtain rfl := List.tail_eq_of_cons_eq heq
    rfl
  · next hsign heq =>
    obtain rfl := List.tail_eq_of_cons_eq heq
    rw [if_neg]
    · rfl
    · intro hhead
      obtain ⟨behind, rfl⟩ := List.head?_eq_some_iff.1 hhead
      exact hsign behind rfl
  · next hnone => exact absurd rfl (hnone cs)

theorem head?_spelling : (atoms.flatMap ClassAtom.spelling ++ [']']).head? = some '^' ↔
    atoms.head? = some (.plain '^') := by
  cases atoms with
  | nil => simp
  | cons a atoms => cases a <;> simp [ClassAtom.spelling]

theorem parse_spelled (hinside : ∀ a ∈ atoms, a.IsInside ']')
    (htext : text.toList = '[' :: (atoms.flatMap ClassAtom.spelling ++ [']'])) :
    parse text = if atoms.head? = some (.plain '^') then .error .negated else
      (ClassItem.ofAtoms true atoms).bind fun items =>
        if items.isEmpty then .error .empty else .ok ⟨text, partsOf items⟩ := by
  rw [parse_bracket htext, ClassBody.read_append hinside]
  simp only [head?_spelling]

theorem parse_spelled_eq_ok {set : CharClass} (hinside : ∀ a ∈ atoms, a.IsInside ']')
    (htext : text.toList = '[' :: (atoms.flatMap ClassAtom.spelling ++ [']'])) :
    parse text = .ok set ↔ atoms.head? ≠ some (.plain '^') ∧
      ∃ items, items ≠ [] ∧ ClassItem.Reads atoms items [] ∧ set = ⟨text, partsOf items⟩ := by
  rw [parse_spelled hinside htext]
  simp only [← ClassItem.ofAtoms_eq_ok]
  split
  · next hsign => simp [hsign]
  · next hsign =>
    cases ClassItem.ofAtoms true atoms with
    | error => simp [Except.bind]
    | ok items => cases items <;> simp [Except.bind, hsign, eq_comm]

end CharClass

end Ebnf
