import Ebnf.Proofs.Counting

/-! Which texts are counted quantifiers. Two readings are tried, and a number too large for either
fails after its digits are read; what is accepted is still told by the form of the text alone: one
number in braces, or two that may be missing with a comma between them, and blanks around each. -/

namespace Ebnf

namespace Counted

/-- A run of decimal digits whose value is below the limit. -/
structure IsNumeral (digits : List Char) (n : Nat) : Prop where
  ne_nil : digits ≠ []
  isDigit : ∀ c ∈ digits, c.isDigit = true
  value : Nat.ofDigitChars 10 digits 0 = n
  lt : n < 2 ^ 64

inductive IsBound : List Char → Option Nat → Prop
  | missing : IsBound [] none
  | given {digits : List Char} {n : Nat} (h : IsNumeral digits n) : IsBound digits (some n)

def AreBlank (cs : List Char) : Prop := ∀ c ∈ cs, c = ' ' ∨ c = '\r' ∨ c = '\n' ∨ c = '\t'

/-- What stands between blanks, if these are not its own. -/
inductive Padded (cs : List Char) : List Char → Prop
  | intro {before behind : List Char} (hbefore : AreBlank before) (hbehind : AreBlank behind) :
      Padded cs (before ++ (cs ++ behind))

/-- The quantifiers in braces, and the bounds they stand for. -/
inductive Denotes : List Char → Repetition → Prop
  | fixed {digits inner : List Char} {n : Nat} (h : IsNumeral digits n)
      (hinner : Padded digits inner) : Denotes ('\x7b' :: (inner ++ ['\x7d'])) ⟨n, some n⟩
  | range {digits digits' inner inner' : List Char} {min max : Option Nat}
      (hmin : IsBound digits min) (hmax : IsBound digits' max) (hinner : Padded digits inner)
      (hinner' : Padded digits' inner') (hproper : ∀ m ∈ min, ∀ n ∈ max, m ≤ n) :
      Denotes ('\x7b' :: (inner ++ ',' :: (inner' ++ ['\x7d']))) ⟨min.getD 0, max⟩

variable {cs rest digits inner : List Char} {c : Char} {n : Nat} {b : Option Nat} {r : Repetition}

theorem isNumeral_zero_cons :
    IsNumeral ('0' :: digits) n ↔ IsNumeral digits n ∨ (digits = [] ∧ n = 0) := by
  have hvalue : Nat.ofDigitChars 10 ('0' :: digits) 0 = Nat.ofDigitChars 10 digits 0 := by
    simp [Nat.ofDigitChars_eq_foldl]
  constructor
  · rintro ⟨-, hdigits, hn, hlt⟩
    rw [hvalue] at hn
    by_cases hnil : digits = []
    · subst hnil
      exact .inr ⟨rfl, hn.symm⟩
    · exact .inl ⟨hnil, fun c hc => hdigits c (List.mem_cons_of_mem _ hc), hn, hlt⟩
  · rintro (h | ⟨rfl, rfl⟩)
    · exact ⟨List.cons_ne_nil _ _, List.forall_mem_cons.2 ⟨rfl, h.isDigit⟩, hvalue.trans h.value,
        h.lt⟩
    · exact ⟨List.cons_ne_nil _ _, by simp, rfl, by decide⟩

theorem IsNumeral.stops_isBlank (h : IsNumeral digits n) :
    Stops isBlank (digits ++ rest).head? := by
  obtain ⟨d, ds, rfl⟩ := List.exists_cons_of_ne_nil h.ne_nil
  exact stops_of_eq_false (isBlank_of_isDigit (h.isDigit d List.mem_cons_self))

theorem number?_eq_some : number? cs = some (n, rest) ↔
    ∃ digits, IsNumeral digits n ∧ cs = digits ++ rest ∧ Stops Char.isDigit rest.head? := by
  constructor
  · intro h
    simp only [number?] at h
    split at h
    · cases h
    · next hsmall =>
      obtain ⟨hsome, hlimit⟩ := not_or.1 hsmall
      cases h
      exact ⟨_, ⟨by simpa using hsome, fun c hc => List.mem_takeWhile_imp hc,
        (value_eq_ofDigitChars _).symm, Nat.lt_of_not_le hlimit⟩,
        List.takeWhile_append_dropWhile.symm, stops_dropWhile⟩
  · rintro ⟨digits, h, rfl, hstops⟩
    have hvalue : value digits = n := (value_eq_ofDigitChars digits).trans h.value
    have hread := number?_append h.isDigit h.ne_nil (hvalue ▸ h.lt) hstops
    rw [hread, hvalue]

theorem isBlank_iff : isBlank c = true ↔ c = ' ' ∨ c = '\r' ∨ c = '\n' ∨ c = '\t' := by
  simp [isBlank, or_assoc]

theorem skipBlanks_eq : skipBlanks cs = rest ↔
    Stops isBlank rest.head? ∧ ∃ blanks, AreBlank blanks ∧ cs = blanks ++ rest := by
  constructor
  · rintro rfl
    exact ⟨stops_dropWhile, cs.takeWhile isBlank,
      fun c hc => isBlank_iff.1 (List.mem_takeWhile_imp hc),
      List.takeWhile_append_dropWhile.symm⟩
  · rintro ⟨hstops, blanks, hblanks, rfl⟩
    have hskip : skipBlanks (blanks ++ rest) = skipBlanks rest :=
      List.dropWhile_append_of_pos fun c hc => isBlank_iff.2 (hblanks c hc)
    rw [hskip, skipBlanks_of_stops hstops]

theorem AreBlank.append {ds : List Char} (h : AreBlank cs) (h' : AreBlank ds) :
    AreBlank (cs ++ ds) :=
  List.forall_mem_append.2 ⟨h, h'⟩

theorem skipBlanks_append (h : AreBlank cs) (hstops : Stops isBlank rest.head?) :
    skipBlanks (cs ++ rest) = rest :=
  skipBlanks_eq.2 ⟨hstops, cs, h, rfl⟩

theorem stops_isDigit_append (h : AreBlank cs) (hdigit : c.isDigit = false) :
    Stops Char.isDigit (cs ++ c :: rest).head? := by
  cases cs with
  | nil => exact stops_of_eq_false hdigit
  | cons d cs =>
    refine stops_of_eq_false (Bool.eq_false_iff.2 fun hd => ?_)
    have hblank := isBlank_iff.2 (h d List.mem_cons_self)
    rw [isBlank_of_isDigit hd] at hblank
    cases hblank

theorem number?_padded (hblank : isBlank c = false) (hdigit : c.isDigit = false) :
    (∃ behind, number? (skipBlanks cs) = some (n, behind) ∧ skipBlanks behind = c :: rest) ↔
      ∃ digits inner, IsNumeral digits n ∧ Padded digits inner ∧ cs = inner ++ c :: rest := by
  constructor
  · rintro ⟨behind, hread, hskip⟩
    obtain ⟨digits, hnumeral, hnumber, -⟩ := number?_eq_some.1 hread
    obtain ⟨-, before, hbefore, rfl⟩ := skipBlanks_eq.1 hnumber
    obtain ⟨-, blanks, hblanks, rfl⟩ := skipBlanks_eq.1 hskip
    exact ⟨digits, _, hnumeral, ⟨hbefore, hblanks⟩, by simp only [List.append_assoc]⟩
  · rintro ⟨digits, inner, hnumeral, ⟨hbefore, hbehind⟩, rfl⟩
    simp only [List.append_assoc]
    rw [skipBlanks_append hbefore hnumeral.stops_isBlank]
    exact ⟨_, number?_eq_some.2 ⟨digits, hnumeral, rfl, stops_isDigit_append hbehind hdigit⟩,
      skipBlanks_append hbehind (stops_of_eq_false hblank)⟩

theorem bound_eq (hblank : isBlank c = false) (hdigit : c.isDigit = false) :
    bound cs = (b, c :: rest) ↔
      ∃ digits inner, IsBound digits b ∧ Padded digits inner ∧ cs = inner ++ c :: rest := by
  rw [bound]
  constructor
  · intro h
    rcases hnumber : number? (skipBlanks cs) with - | ⟨n, behind⟩ <;> rw [hnumber] at h <;>
      obtain ⟨rfl, hskip⟩ := Prod.mk.inj h
    · obtain ⟨-, blanks, hblanks, rfl⟩ := skipBlanks_eq.1 hskip
      exact ⟨[], _, .missing, ⟨hblanks, List.forall_mem_nil _⟩, by simp⟩
    · obtain ⟨digits, inner, hnumeral, hinner, rfl⟩ :=
        (number?_padded hblank hdigit).1 ⟨behind, hnumber, hskip⟩
      exact ⟨digits, inner, .given hnumeral, hinner, rfl⟩
  · rintro ⟨digits, inner, hbound, hinner, rfl⟩
    cases hbound with
    | missing =>
      -- nothing parts the two runs of blanks, and they are skipped as one
      obtain ⟨hbefore, hbehind⟩ := hinner
      have hskip := skipBlanks_append (hbefore.append hbehind)
        (stops_of_eq_false hblank : Stops isBlank (c :: rest).head?)
      have hnone : number? (c :: rest) = none := number?_of_stops (stops_of_eq_false hdigit)
      rw [List.nil_append, hskip, hnone]
    | given hnumeral =>
      have hparts : inner ++ c :: rest = inner ++ c :: rest := rfl
      obtain ⟨behind, hnumber, hskip⟩ :=
        (number?_padded hblank hdigit).2 ⟨digits, inner, hnumeral, hinner, hparts⟩
      rw [hnumber]
      simp only [hskip]

theorem fixed?_eq_some : fixed? cs = some r ↔ ∃ digits inner n, IsNumeral digits n ∧
    Padded digits inner ∧ cs = '\x7b' :: (inner ++ ['\x7d']) ∧ r = ⟨n, some n⟩ := by
  have hnumber (cs : List Char) (n : Nat) :
      (∃ behind, number? (skipBlanks cs) = some (n, behind) ∧ skipBlanks behind = ['\x7d']) ↔
        ∃ digits inner, IsNumeral digits n ∧ Padded digits inner ∧ cs = inner ++ ['\x7d'] :=
    number?_padded rfl rfl
  constructor
  · intro h
    unfold fixed? at h
    split at h
    · obtain ⟨⟨n, behind⟩, hread, hend⟩ := Option.bind_eq_some_iff.1 h
      obtain ⟨hclosed, hr⟩ := Option.ite_none_right_eq_some.1 hend
      obtain ⟨digits, inner, hnumeral, hinner, rfl⟩ := (hnumber _ n).1 ⟨behind, hread, hclosed⟩
      exact ⟨digits, inner, n, hnumeral, hinner, rfl, (Option.some.inj hr).symm⟩
    · cases h
  · rintro ⟨digits, inner, n, hnumeral, hinner, rfl, rfl⟩
    obtain ⟨behind, hread, hclosed⟩ := (hnumber _ n).2 ⟨digits, inner, hnumeral, hinner, rfl⟩
    simp [fixed?, hread, hclosed]

theorem range?_eq_some : range? cs = some r ↔
    ∃ digits digits' inner inner' min max, IsBound digits min ∧ IsBound digits' max ∧
      Padded digits inner ∧ Padded digits' inner' ∧
      cs = '\x7b' :: (inner ++ ',' :: (inner' ++ ['\x7d'])) ∧ r = ⟨min.getD 0, max⟩ := by
  constructor
  · intro h
    unfold range? at h
    split at h
    · split at h
      · next hfirst =>
        split at h
        · next hsecond =>
          obtain ⟨digits, inner, hmin, hinner, rfl⟩ := (bound_eq rfl rfl).1 hfirst
          obtain ⟨digits', inner', hmax, hinner', rfl⟩ := (bound_eq rfl rfl).1 hsecond
          exact ⟨digits, digits', inner, inner', _, _, hmin, hmax, hinner, hinner', rfl,
            (Option.some.inj h).symm⟩
        · cases h
      · cases h
    · cases h
  · rintro ⟨digits, digits', inner, inner', min, max, hmin, hmax, hinner, hinner', rfl, rfl⟩
    have hfirst : bound (inner ++ ',' :: (inner' ++ ['\x7d'])) =
        (min, ',' :: (inner' ++ ['\x7d'])) :=
      (bound_eq rfl rfl).2 ⟨digits, inner, hmin, hinner, rfl⟩
    have hsecond : bound (inner' ++ ['\x7d']) = (max, ['\x7d']) :=
      (bound_eq rfl rfl).2 ⟨digits', inner', hmax, hinner', rfl⟩
    simp only [range?, hfirst, hsecond]

theorem fixed?_of_range? (h : range? cs = some r) : fixed? cs = none := by
  obtain ⟨-, -, inner, inner', -, -, -, -, -, -, rfl, -⟩ := range?_eq_some.1 h
  refine Option.eq_none_iff_forall_ne_some.2 fun r' hfixed => ?_
  obtain ⟨digits, between, n, hnumeral, ⟨hbefore, hbehind⟩, hsame, -⟩ := fixed?_eq_some.1 hfixed
  have hcomma : ',' ∈ inner ++ ',' :: (inner' ++ ['\x7d']) := by simp
  rw [List.tail_eq_of_cons_eq hsame] at hcomma
  simp only [List.mem_append, List.mem_singleton] at hcomma
  rcases hcomma with (hblank | hdigit | hblank) | hbrace
  · exact absurd (hbefore _ hblank) (by decide)
  · exact absurd (hnumeral.isDigit _ hdigit) (by decide)
  · exact absurd (hbehind _ hblank) (by decide)
  · exact absurd hbrace (by decide)

theorem denotes_iff : Denotes cs r ↔
    (fixed? cs = some r ∨ range? cs = some r) ∧ ∀ max ∈ r.max, r.min ≤ max := by
  constructor
  · rintro (⟨hnumeral, hinner⟩ | ⟨hmin, hmax, hinner, hinner', hproper⟩)
    · exact ⟨.inl (fixed?_eq_some.2 ⟨_, _, _, hnumeral, hinner, rfl, rfl⟩), by simp⟩
    · refine ⟨.inr (range?_eq_some.2 ⟨_, _, _, _, _, _, hmin, hmax, hinner, hinner', rfl, rfl⟩), ?_⟩
      intro n hn
      cases hmin with
      | missing => exact Nat.zero_le n
      | given => exact hproper _ rfl n hn
  · rintro ⟨hfixed | hrange, hproper⟩
    · obtain ⟨digits, inner, n, hnumeral, hinner, rfl, rfl⟩ := fixed?_eq_some.1 hfixed
      exact .fixed hnumeral hinner
    · obtain ⟨_, _, _, _, min, max, hmin, hmax, hinner, hinner', rfl, rfl⟩ :=
        range?_eq_some.1 hrange
      refine .range hmin hmax hinner hinner' fun m hm n hn => ?_
      obtain rfl := Option.mem_def.1 hm
      exact hproper n hn

end Counted

open Counted

theorem Mark.repetition_counted_eq_ok {text : String} {r : Repetition} :
    (Mark.counted text).repetition = .ok r ↔
      (fixed? text.toList = some r ∨ range? text.toList = some r) ∧
        ∀ max ∈ r.max, r.min ≤ max := by
  have hread : (fixed? text.toList).or (range? text.toList) = some r ↔
      fixed? text.toList = some r ∨ range? text.toList = some r := by
    rw [Option.or_eq_some_iff]
    exact or_congr_right ⟨And.right, fun h => ⟨fixed?_of_range? h, h⟩⟩
  have hproper (r : Repetition) :
      r.max.any (· < r.min) = false ↔ ∀ max ∈ r.max, r.min ≤ max := by
    cases r.max <;> simp
  rw [← hread, ← hproper, Mark.repetition]
  split
  · next found hfound =>
    rw [hfound, Option.some.injEq]
    split
    · next habove =>
      constructor
      · intro h
        cases h
      · rintro ⟨rfl, hnot⟩
        rw [habove] at hnot
        cases hnot
    · next hnot =>
      rw [Except.ok.injEq]
      exact ⟨fun h => ⟨h, h ▸ Bool.eq_false_iff.2 hnot⟩, And.left⟩
  · next hnone => simp [hnone]

/-- A counted quantifier is read just when it is one number in braces, or two that may be missing
with a comma between them, blanks around each, every number below the limit and the first not above
the second; it is read as the bounds these numbers say. Zeros in front of a number say nothing. -/
theorem Mark.counted_iff_denotes (text : String) (r : Repetition) :
    ((Mark.counted text).repetition = .ok r ↔ Denotes text.toList r) ∧
      ∀ (digits : List Char) (n : Nat), IsNumeral ('0' :: digits) n ↔
        IsNumeral digits n ∨ (digits = [] ∧ n = 0) :=
  ⟨repetition_counted_eq_ok.trans denotes_iff.symm, fun _ _ => isNumeral_zero_cons⟩

example : (Mark.counted "\x7b 007 ,\t\x7d").repetition = .ok ⟨7, none⟩ := by decide +kernel

end Ebnf
