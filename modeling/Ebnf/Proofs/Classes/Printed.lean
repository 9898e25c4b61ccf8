import Ebnf.Proofs.Classes.Items

/-! Classes printed and read back. Items of any kind may stand in any order: if the characters that
would be read as marks stand behind backslashes, each item is read as what it was, and the class
contains a character just when some item denotes it. The only items that are refused are none at
all and ranges whose ends are in the wrong order. -/

namespace Ebnf

/-- A character of a class, behind a backslash if it would be read as a mark. -/
def printClassChar (c : Char) : List Char := if c ∈ [']', '\\', '-', '^'] then ['\\', c] else [c]

def Shorthand.letter : Shorthand → Char
  | space => 's'
  | digit => 'd'
  | word => 'w'
  | anything => '.'

def ClassItem.print : ClassItem → List Char
  | single c => printClassChar c
  | range first last => printClassChar first ++ '-' :: printClassChar last
  | shorthand s => ['\\', s.letter]

def CharClass.print (items : List ClassItem) : String :=
  String.ofList ('[' :: (items.flatMap ClassItem.print ++ [']']))

namespace Shorthand

def IsSpace (c : Char) : Prop :=
  c = ' ' ∨ c = '\x0c' ∨ c = '\n' ∨ c = '\r' ∨ c = '\t' ∨ c = '\x0b'

def IsPunctuation (c : Char) : Prop :=
  '!' ≤ c ∧ c ≤ '/' ∨ ':' ≤ c ∧ c ≤ '@' ∨ '[' ≤ c ∧ c ≤ '`' ∨ '\x7b' ≤ c ∧ c ≤ '~'

instance : DecidablePred IsPunctuation := fun c =>
  inferInstanceAs (Decidable ('!' ≤ c ∧ c ≤ '/' ∨ ':' ≤ c ∧ c ≤ '@' ∨ '[' ≤ c ∧ c ≤ '`' ∨
    '\x7b' ≤ c ∧ c ≤ '~'))

/-- The characters a shorthand stands for, all of them ASCII. -/
def Denotes (s : Shorthand) (c : Char) : Prop :=
  match s with
  | space => IsSpace c
  | digit => '0' ≤ c ∧ c ≤ '9'
  | word => '0' ≤ c ∧ c ≤ '9' ∨ 'A' ≤ c ∧ c ≤ 'Z' ∨ 'a' ≤ c ∧ c ≤ 'z' ∨ c = '_'
  | anything => '0' ≤ c ∧ c ≤ '9' ∨ 'A' ≤ c ∧ c ≤ 'Z' ∨ 'a' ≤ c ∧ c ≤ 'z' ∨ IsSpace c ∨
      IsPunctuation c

end Shorthand

def ClassItem.Denotes : ClassItem → Char → Prop
  | single d, c => c = d
  | range first last, c => first ≤ c ∧ c ≤ last
  | shorthand s, c => s.Denotes c

def ClassAtom.ofClassChar (c : Char) : ClassAtom :=
  if c ∈ [']', '\\', '-', '^'] then .escaped c else .plain c

namespace ClassAtom

variable {c : Char}

theorem ofClassChar_cases (c : Char) :
    ofClassChar c = .escaped c ∧ c ∈ [']', '\\', '-', '^'] ∨
      ofClassChar c = .plain c ∧ c ∉ [']', '\\', '-', '^'] := by
  unfold ofClassChar
  split
  · next hmark => exact .inl ⟨rfl, hmark⟩
  · next hplain => exact .inr ⟨rfl, hplain⟩

theorem spelling_ofClassChar (c : Char) : (ofClassChar c).spelling = printClassChar c := by
  unfold ofClassChar printClassChar
  split <;> rfl

theorem isInside_ofClassChar (c : Char) : (ofClassChar c).IsInside ']' := by
  rcases ofClassChar_cases c with ⟨heq, -⟩ | ⟨heq, hplain⟩ <;> rw [heq]
  · trivial
  · simp only [List.mem_cons, not_or] at hplain
    exact ⟨hplain.1, hplain.2.1⟩

theorem meaning_ofClassChar (c : Char) : (ofClassChar c).meaning = .literal c := by
  rcases ofClassChar_cases c with ⟨heq, hmark⟩ | ⟨heq, -⟩ <;> rw [heq]
  · simp only [List.mem_cons, List.not_mem_nil, or_false] at hmark
    rcases hmark with rfl | rfl | rfl | rfl <;> rfl
  · rfl

theorem char_ofClassChar (c : Char) : (ofClassChar c).char = c := by
  rcases ofClassChar_cases c with ⟨heq, hmark⟩ | ⟨heq, -⟩ <;> rw [heq]
  · simp only [List.mem_cons, List.not_mem_nil, or_false] at hmark
    rcases hmark with rfl | rfl | rfl | rfl <;> rfl
  · rfl

theorem ofClassChar_ne_plain {mark : Char} (hmark : mark ∈ [']', '\\', '-', '^']) (c : Char) :
    ofClassChar c ≠ .plain mark := by
  rcases ofClassChar_cases c with ⟨heq, -⟩ | ⟨heq, hplain⟩ <;> rw [heq] <;> intro hsame
  · cases hsame
  · cases hsame
    exact hplain hmark

theorem meaning_letter (s : Shorthand) : (escaped s.letter).meaning = .shorthand s := by
  cases s <;> rfl

end ClassAtom

namespace ClassItem

open ClassAtom

def atoms : ClassItem → List ClassAtom
  | single c => [ofClassChar c]
  | range first last => [ofClassChar first, .plain '-', ofClassChar last]
  | shorthand s => [.escaped s.letter]

variable {items : List ClassItem}

theorem spelling_atoms (i : ClassItem) : i.atoms.flatMap spelling = i.print := by
  cases i with
  | single c => simp only [atoms, print, List.flatMap_singleton, spelling_ofClassChar]
  | range first last =>
    simp only [atoms, print, List.flatMap_cons, List.flatMap_nil, List.append_nil,
      spelling_ofClassChar]
    rfl
  | shorthand s => rfl

theorem spelling_flatMap_atoms (items : List ClassItem) :
    (items.flatMap atoms).flatMap spelling = items.flatMap print := by
  rw [List.flatMap_assoc]
  exact List.flatMap_congr fun i _ => spelling_atoms i

theorem isInside_atoms (items : List ClassItem) :
    ∀ a ∈ items.flatMap atoms, a.IsInside ']' := by
  intro a ha
  obtain ⟨i, -, ha⟩ := List.mem_flatMap.1 ha
  have hdash : (plain '-').IsInside ']' := by constructor <;> decide
  cases i with
  | single c =>
    obtain rfl := List.mem_singleton.1 ha
    exact isInside_ofClassChar c
  | range first last =>
    simp only [atoms, List.mem_cons, List.not_mem_nil, or_false] at ha
    rcases ha with rfl | rfl | rfl
    · exact isInside_ofClassChar first
    · exact hdash
    · exact isInside_ofClassChar last
  | shorthand s =>
    obtain rfl := List.mem_singleton.1 ha
    trivial

theorem head?_atoms (mark : Char) (hmark : mark ∈ [']', '\\', '-', '^']) :
    (items.flatMap atoms).head? ≠ some (.plain mark) := by
  intro hhead
  cases items with
  | nil => cases hhead
  | cons i items =>
    cases i with
    | single c => exact ofClassChar_ne_plain hmark c (Option.some.inj hhead)
    | range first last => exact ofClassChar_ne_plain hmark first (Option.some.inj hhead)
    | shorthand s => cases hhead

instance : DecidablePred IsOrdered
  | range first last => inferInstanceAs (Decidable (first ≤ last))
  | single _ | shorthand _ => inferInstanceAs (Decidable True)

/-- Printed items are read back unless the ends of a range are in the wrong order. -/
theorem ofAtoms_atoms (items : List ClassItem) : ofAtoms true (items.flatMap atoms) =
    if ∀ i ∈ items, i.IsOrdered then .ok items else .error .rangeOrder := by
  induction items with
  | nil => rfl
  | cons i items ih =>
    have cons (h : i.IsOrdered) : (ofAtoms true (items.flatMap atoms)).map (i :: ·) =
        if ∀ j ∈ i :: items, j.IsOrdered then .ok (i :: items) else .error .rangeOrder := by
      rw [ih]
      simp only [List.forall_mem_cons, h, true_and]
      split <;> rfl
    have hdash : (items.flatMap atoms).head? ≠ _ := head?_atoms '-' (by decide)
    rw [List.flatMap_cons]
    cases i with
    | single c => exact (ofAtoms_single (meaning_ofClassChar c) hdash).trans (cons trivial)
    | shorthand s => exact (ofAtoms_shorthand (meaning_letter s)).trans (cons trivial)
    | range first last =>
      have hrange : ofAtoms true
          (ofClassChar first :: .plain '-' :: ofClassChar last :: items.flatMap atoms) =
            if last < first then .error .rangeOrder
            else (ofAtoms true (items.flatMap atoms)).map (range first last :: ·) := by
        rw [ofAtoms_range (meaning_ofClassChar first), char_ofClassChar]
      refine hrange.trans ?_
      by_cases horder : first ≤ last
      · rw [if_neg (Char.not_lt.2 horder)]
        exact cons horder
      · rw [if_pos (Char.not_le.1 horder), if_neg fun hall => horder (hall _ List.mem_cons_self)]

end ClassItem

namespace CharPart

variable {c : Char}

theorem contains_range {first last : Char} :
    (range first last).contains c = true ↔ first ≤ c ∧ c ≤ last := by
  rw [contains, Bool.and_eq_true, decide_eq_true_eq, decide_eq_true_eq]

theorem contains_choice {chars : List Char} : (choice chars).contains c = true ↔ c ∈ chars :=
  List.contains_iff_mem

theorem contains_spaces : spaces.contains c = true ↔ Shorthand.IsSpace c := by
  rw [spaces, contains_choice]
  simp only [List.mem_cons, List.not_mem_nil, or_false, Shorthand.IsSpace]

theorem of_ascii {p : Char → Prop} (h : ∀ n < 128, p (Char.ofNat n)) (hc : c.toNat < 128) :
    p c := by
  have hp := h c.toNat hc
  rwa [Char.ofNat_toNat] at hp

theorem contains_punctuation : punctuation.contains c = true ↔ Shorthand.IsPunctuation c := by
  by_cases hascii : c.toNat < 128
  · refine of_ascii (p := fun c => punctuation.contains c = true ↔ Shorthand.IsPunctuation c)
      ?_ hascii
    decide +kernel
  · constructor
    · intro hmem
      -- everything in the list is ASCII
      have hall : "!\"#$%&'()*+,-./:;<=>?@[\\]^_`\x7b|\x7d~".toList.all
          (fun d => decide (d.toNat < 128)) = true := by
        decide +kernel
      have hc := List.all_eq_true.1 hall c (contains_choice.1 hmem)
      exact absurd (of_decide_eq_true hc) hascii
    · have above {last : Char} (hlast : last.toNat < 128) : ¬ c ≤ last :=
        fun hle => hascii (Nat.lt_of_le_of_lt hle hlast)
      rintro (⟨-, hle⟩ | ⟨-, hle⟩ | ⟨-, hle⟩ | ⟨-, hle⟩) <;> exact absurd hle (above (by decide))

end CharPart

namespace ClassItem

open CharPart

/-- What an item denotes is in one of its parts, or it is the item's single character. -/
theorem denotes_iff (i : ClassItem) (c : Char) :
    i.Denotes c ↔ (∃ p ∈ i.parts, p.contains c = true) ∨ i.loose? = some c := by
  cases i with
  | single d =>
    change c = d ↔ (∃ p ∈ ([] : List CharPart), p.contains c = true) ∨ some d = some c
    simp [@eq_comm _ d]
  | range first last =>
    change first ≤ c ∧ c ≤ last ↔
      (∃ p ∈ [CharPart.range first last], p.contains c = true) ∨ none = some c
    simp [contains_range]
  | shorthand s =>
    cases s with
    | space =>
      change Shorthand.IsSpace c ↔ (∃ p ∈ [spaces], p.contains c = true) ∨ none = some c
      simp [contains_spaces]
    | digit =>
      change '0' ≤ c ∧ c ≤ '9' ↔ (∃ p ∈ [digits], p.contains c = true) ∨ none = some c
      simp [digits, contains_range]
    | word =>
      change '0' ≤ c ∧ c ≤ '9' ∨ 'A' ≤ c ∧ c ≤ 'Z' ∨ 'a' ≤ c ∧ c ≤ 'z' ∨ c = '_' ↔
        (∃ p ∈ [digits, uppers, lowers], p.contains c = true) ∨ some '_' = some c
      simp [digits, uppers, lowers, contains_range, or_assoc, @eq_comm _ '_']
    | anything =>
      change '0' ≤ c ∧ c ≤ '9' ∨ 'A' ≤ c ∧ c ≤ 'Z' ∨ 'a' ≤ c ∧ c ≤ 'z' ∨
          Shorthand.IsSpace c ∨ Shorthand.IsPunctuation c ↔
        (∃ p ∈ [digits, uppers, lowers, spaces, punctuation], p.contains c = true) ∨ none = some c
      simp [digits, uppers, lowers, contains_range, contains_spaces, contains_punctuation]

end ClassItem

namespace CharClass

open ClassItem

theorem contains_partsOf (source : String) (items : List ClassItem) (c : Char) :
    (CharClass.mk source (partsOf items)).contains c = true ↔ ∃ i ∈ items, i.Denotes c := by
  have hloose : (if (items.filterMap loose?).isEmpty then [] else
      [CharPart.choice (items.filterMap loose?)]).any (·.contains c) = true ↔
        c ∈ items.filterMap loose? := by
    cases items.filterMap loose? with
    | nil => simp
    | cons d ds => simp [CharPart.contains_choice]
  rw [contains, partsOf, List.any_append, Bool.or_eq_true, hloose]
  simp only [denotes_iff, List.any_eq_true, List.mem_flatMap, List.mem_filterMap]
  constructor
  · rintro (⟨p, ⟨i, hi, hp⟩, hc⟩ | ⟨i, hi, hc⟩)
    · exact ⟨i, hi, .inl ⟨p, hp, hc⟩⟩
    · exact ⟨i, hi, .inr hc⟩
  · rintro ⟨i, hi, ⟨p, hp, hc⟩ | hc⟩
    · exact .inl ⟨p, ⟨i, hi, hp⟩, hc⟩
    · exact .inr ⟨i, hi, hc⟩

theorem parse_print_eq (items : List ClassItem) : parse (print items) =
    if ∀ i ∈ items, i.IsOrdered then
      if items.isEmpty then .error .empty else .ok ⟨print items, partsOf items⟩
    else .error .rangeOrder := by
  have htext : (print items).toList =
      '[' :: ((items.flatMap atoms).flatMap ClassAtom.spelling ++ [']']) := by
    rw [print, String.toList_ofList, spelling_flatMap_atoms]
  rw [parse_spelled (isInside_atoms items) htext, if_neg (head?_atoms '^' (by decide)),
    ofAtoms_atoms]
  split <;> rfl

/-- A class printed from items is read just when there are some and no range has its first end above
its second, and then it contains the characters that the items denote, whatever they are and in
whatever order they stand. -/
theorem parse_print (items : List ClassItem) :
    ((∃ set, parse (print items) = .ok set) ↔ items ≠ [] ∧ ∀ i ∈ items, i.IsOrdered) ∧
      ∀ set, parse (print items) = .ok set →
        ∀ c, set.contains c = true ↔ ∃ i ∈ items, i.Denotes c := by
  rw [parse_print_eq]
  by_cases hordered : ∀ i ∈ items, i.IsOrdered
  · rw [if_pos hordered]
    cases items with
    | nil => exact ⟨⟨nofun, fun h => absurd rfl h.1⟩, nofun⟩
    | cons i items =>
      refine ⟨⟨fun _ => ⟨List.cons_ne_nil _ _, hordered⟩, fun _ => ⟨_, rfl⟩⟩, ?_⟩
      intro set hset c
      cases hset
      exact contains_partsOf _ _ c
  · rw [if_neg hordered]
    exact ⟨⟨nofun, fun h => absurd h.2 hordered⟩, nofun⟩

/-- Dashes next to shorthands and ranges, at the ends of a range and behind one. -/
theorem parse_print_dashes : ∃ set,
    print [.shorthand .digit, .single '-', .range '*' '-', .single '-', .range ']' '^',
      .shorthand .space] = "[\\d\\-*-\\-\\-\\]-\\^\\s]" ∧
    parse "[\\d\\-*-\\-\\-\\]-\\^\\s]" = .ok set ∧
    ∀ c, set.contains c = true ↔ ∃ i ∈ [ClassItem.shorthand .digit, .single '-', .range '*' '-',
      .single '-', .range ']' '^', .shorthand .space], i.Denotes c := by
  have hprint : print [.shorthand .digit, .single '-', .range '*' '-', .single '-',
      .range ']' '^', .shorthand .space] = "[\\d\\-*-\\-\\-\\]-\\^\\s]" := by
    decide +kernel
  have hread := parse_print [.shorthand .digit, .single '-', .range '*' '-', .single '-',
    .range ']' '^', .shorthand .space]
  rw [hprint] at hread
  obtain ⟨set, hset⟩ := hread.1.2 ⟨List.cons_ne_nil _ _, by decide⟩
  exact ⟨set, hprint, hset, hread.2 set hset⟩

end CharClass

end Ebnf
