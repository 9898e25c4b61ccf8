import Ebnf.Proofs.Lexing.Trivia
import Mathlib.Data.List.TakeWhile

/-! How each kind of token is spelled. Where a token ends may depend on the character behind it,
`next`, but on nothing further. The scanner finds just the tokens that are spelled at the head of
a text, and their spelling alone says what they mean. -/

namespace Ebnf

/-- Whether an atom leaves open what `close` ends. -/
def ClassAtom.IsInside (close : Char) : ClassAtom → Prop
  | plain c => c ≠ close ∧ c ≠ '\\'
  | escaped _ => True

def Stops (p : Char → Bool) (next : Option Char) : Prop := ∀ c ∈ next, p c = false

/-- A label is a maximal word behind a dot. -/
inductive LabelSpelled : Option String → List Char → Option Char → Prop
  | absent {next : Option Char} (h : next ≠ some '.') : LabelSpelled none [] next
  | word {cs : List Char} {next : Option Char} (hword : ∀ c ∈ cs, isWordChar c = true)
      (hsome : cs ≠ []) (hstops : Stops isWordChar next) :
      LabelSpelled (some (String.ofList cs)) ('.' :: cs) next

inductive Lexeme.Spelled : Lexeme → List Char → Option Char → Prop
  | name {c : Char} {cs : List Char} {next : Option Char} (hstart : isNameStart c = true)
      (hword : ∀ d ∈ cs, isWordChar d = true) (hstops : Stops isWordChar next) :
      Spelled (.name (String.ofList (c :: cs))) (c :: cs) next
  | quoted {quote : Char} {atoms : List ClassAtom} {next : Option Char}
      (hquote : quote = '"' ∨ quote = '\'') (hinside : ∀ a ∈ atoms, a.IsInside quote) :
      Spelled (.literal (String.ofList (atoms.map ClassAtom.char)))
        (quote :: (atoms.flatMap ClassAtom.spelling ++ [quote])) next
  | free {c : Char} {cs : List Char} {next : Option Char} (hfree : ∀ d ∈ c :: cs, isFree d = true)
      (hname : isNameStart c = false) (hdefine : ¬ [':', ':', '='] <+: c :: cs)
      (hcomment : ¬ StartsTrivia (c :: cs ++ next.toList)) (hstops : Stops isFree next) :
      Spelled (.literal (String.ofList (c :: cs))) (c :: cs) next
  | charClass {atoms : List ClassAtom} {next : Option Char}
      (hinside : ∀ a ∈ atoms, a.IsInside ']') :
      Spelled (.charClass (String.ofList ('[' :: (atoms.flatMap ClassAtom.spelling ++ [']']))))
        ('[' :: (atoms.flatMap ClassAtom.spelling ++ [']'])) next
  | counted {inside cs : List Char} {label : Option String} {next : Option Char}
      (hinside : '\x7d' ∉ inside) (hlabel : LabelSpelled label cs next) :
      Spelled (.quantifier (.counted (String.ofList ('\x7b' :: (inside ++ ['\x7d'])))) label)
        ('\x7b' :: (inside ++ ['\x7d']) ++ cs) next
  | optional {cs : List Char} {label : Option String} {next : Option Char}
      (hlabel : LabelSpelled label cs next) :
      Spelled (.quantifier .optional label) ('?' :: cs) next
  | oneOrMore {cs : List Char} {label : Option String} {next : Option Char}
      (hlabel : LabelSpelled label cs next) :
      Spelled (.quantifier .oneOrMore label) ('+' :: cs) next
  | any {cs : List Char} {label : Option String} {next : Option Char}
      (hlabel : LabelSpelled label cs next) :
      Spelled (.quantifier .any label) ('*' :: cs) next
  | closing {cs : List Char} {label : Option String} {next : Option Char}
      (hlabel : LabelSpelled label cs next) : Spelled (.closing label) (')' :: cs) next
  | opening {next : Option Char} : Spelled .opening ['('] next
  | define {next : Option Char} : Spelled .define [':', ':', '='] next
  | bar {next : Option Char} : Spelled .bar ['|'] next
  | lookAhead {next : Option Char} : Spelled (.lookAhead true) ['&'] next
  | negativeLookAhead {next : Option Char} : Spelled (.lookAhead false) ['!'] next
  | cut {next : Option Char} : Spelled .cut ['~'] next

variable {p : Char → Bool} {cs rest : List Char} {next : Option Char}

theorem takeWhile_of_stops (h : ∀ c ∈ cs, p c = true) (hstops : Stops p rest.head?) :
    (cs ++ rest).takeWhile p = cs := by
  have hnone : rest.takeWhile p = [] := by
    cases rest with
    | nil => rfl
    | cons c rest => exact List.takeWhile_cons_of_neg (by simp [hstops c rfl])
  rw [List.takeWhile_append_of_pos h, hnone, List.append_nil]

theorem stops_dropWhile : Stops p (cs.dropWhile p).head? := by
  intro c hc
  have hhead := List.head?_dropWhile_not p cs
  rw [Option.mem_def.1 hc] at hhead
  exact hhead

namespace Scan

variable {build : Option String → Lexeme} {n m : Nat} {l : Lexeme}

theorem labelled_append {label : Option String} (h : LabelSpelled label cs rest.head?) :
    labelled build n (cs ++ rest) = .lexeme (build label) (n + cs.length) := by
  generalize hnext : rest.head? = next at h
  cases h with
  | absent hdot =>
    rw [List.nil_append, labelled]
    · rfl
    · rintro after rfl
      exact hdot hnext.symm
  | @word word _ hword hsome hstops =>
    rw [List.cons_append, labelled, takeWhile_of_stops hword (hnext ▸ hstops)]
    simp only [List.isEmpty_iff, hsome, if_false, List.length_cons]
    congr 1
    omega

theorem exists_of_labelled {text : List Char} (h : labelled build n text = .lexeme l m) :
    ∃ label cs rest, text = cs ++ rest ∧ l = build label ∧ m = n + cs.length ∧
      LabelSpelled label cs rest.head? := by
  fun_cases labelled build n text with
  | case1 after word hempty =>
    rw [labelled, if_pos hempty] at h
    cases h
  | case2 after word hsome =>
    rw [labelled, if_neg hsome, lexeme.injEq] at h
    have hword : ∀ c ∈ after.takeWhile isWordChar, isWordChar c = true :=
      fun _ => List.mem_takeWhile_imp
    refine ⟨_, _, after.dropWhile isWordChar, ?_, h.1.symm, ?_,
      .word hword (fun hnil => hsome (List.isEmpty_iff.2 hnil)) stops_dropWhile⟩
    · rw [List.cons_append, List.takeWhile_append_dropWhile]
    · rw [← h.2, List.length_cons]
      omega
  | case3 =>
    next hdot =>
    rw [labelled, lexeme.injEq] at h
    · refine ⟨none, [], text, rfl, h.1.symm, h.2.symm, .absent fun hhead => ?_⟩
      obtain ⟨after, rfl⟩ := List.head?_eq_some_iff.1 hhead
      exact hdot after rfl
    · exact hdot

end Scan

section Quoted

variable {quote c : Char} {atoms : List ClassAtom} {content : List Char} {n : Nat}

theorem quoted_close (hquote : quote ≠ '\\') : quoted quote (quote :: rest) = some ([], 1) := by
  cases rest <;> simp [quoted, hquote]

theorem quoted_plain (hclose : c ≠ quote) (hescape : c ≠ '\\') :
    quoted quote (c :: rest) =
      (quoted quote rest).map fun (content, n) => (c :: content, n + 1) := by
  cases rest <;> simp [quoted, hclose, hescape]

/-- What is behind the opening quote is read up to the first quote that is not escaped. -/
theorem quoted_append (hquote : quote ≠ '\\') (h : ∀ a ∈ atoms, a.IsInside quote) :
    quoted quote (atoms.flatMap ClassAtom.spelling ++ quote :: rest) =
      some (atoms.map ClassAtom.char, (atoms.flatMap ClassAtom.spelling).length + 1) := by
  induction atoms with
  | nil => exact quoted_close hquote
  | cons a atoms ih =>
    obtain ⟨ha, hatoms⟩ := List.forall_mem_cons.1 h
    cases a with
    | plain c =>
      simp only [List.flatMap_cons, ClassAtom.spelling, List.cons_append, List.nil_append]
      rw [quoted_plain ha.1 ha.2, ih hatoms]
      rfl
    | escaped c =>
      simp only [List.flatMap_cons, ClassAtom.spelling, List.cons_append, List.nil_append]
      rw [quoted, if_pos rfl, ih hatoms]
      rfl

theorem exists_of_quoted (h : quoted quote cs = some (content, n)) :
    ∃ (atoms : List ClassAtom) (rest : List Char),
      cs = atoms.flatMap ClassAtom.spelling ++ quote :: rest ∧
      content = atoms.map ClassAtom.char ∧ n = (atoms.flatMap ClassAtom.spelling).length + 1 ∧
      ∀ a ∈ atoms, a.IsInside quote := by
  fun_induction quoted quote cs generalizing content n with
  | case1 => cases h
  | case2 =>
    obtain ⟨rfl, rfl⟩ := Prod.mk.inj (Option.some.inj h)
    exact ⟨[], [], rfl, rfl, rfl, by simp⟩
  | case3 => cases h
  | case4 d rest ih =>
    obtain ⟨⟨_, _⟩, hread, heq⟩ := Option.map_eq_some_iff.1 h
    obtain ⟨atoms, after, rfl, rfl, rfl, hinside⟩ := ih hread
    obtain ⟨rfl, rfl⟩ := Prod.mk.inj heq
    exact ⟨.escaped d :: atoms, after, rfl, rfl, rfl, List.forall_mem_cons.2 ⟨trivial, hinside⟩⟩
  | case5 d rest =>
    obtain ⟨rfl, rfl⟩ := Prod.mk.inj (Option.some.inj h)
    exact ⟨[], d :: rest, rfl, rfl, rfl, by simp⟩
  | case6 c d rest hescape hclose ih =>
    obtain ⟨⟨_, _⟩, hread, heq⟩ := Option.map_eq_some_iff.1 h
    obtain ⟨atoms, after, hrest, rfl, rfl, hinside⟩ := ih hread
    obtain ⟨rfl, rfl⟩ := Prod.mk.inj heq
    refine ⟨.plain c :: atoms, after, ?_, rfl, rfl,
      List.forall_mem_cons.2 ⟨⟨hclose, hescape⟩, hinside⟩⟩
    rw [hrest]
    rfl

end Quoted

namespace ClassBody

variable {c : Char} {atoms : List ClassAtom}

theorem read_plain (hclose : c ≠ ']') (hescape : c ≠ '\\') :
    read (c :: rest) = push (.plain c) (read rest) := by
  cases rest <;> simp [read, push, hclose, hescape]

theorem read_append (h : ∀ a ∈ atoms, a.IsInside ']') :
    read (atoms.flatMap ClassAtom.spelling ++ ']' :: rest) = ⟨atoms, true⟩ := by
  induction atoms with
  | nil => cases rest <;> rfl
  | cons a atoms ih =>
    obtain ⟨ha, hatoms⟩ := List.forall_mem_cons.1 h
    cases a with
    | plain c =>
      simp only [List.flatMap_cons, ClassAtom.spelling, List.cons_append, List.nil_append]
      rw [read_plain ha.1 ha.2, ih hatoms]
      rfl
    | escaped c =>
      simp only [List.flatMap_cons, ClassAtom.spelling, List.cons_append, List.nil_append]
      rw [read, if_neg (by decide), if_pos rfl, ih hatoms]
      rfl

theorem isInside_of_mem_read {a : ClassAtom} (h : a ∈ (read cs).atoms) : a.IsInside ']' := by
  fun_induction read cs with
  | case1 => cases h
  | case2 => cases h
  | case3 => cases h
  | case4 c hclose hescape => exact List.mem_singleton.1 h ▸ ⟨hclose, hescape⟩
  | case5 => cases h
  | case6 d rest _ ih =>
    rcases List.mem_cons.1 h with rfl | hrest
    · trivial
    · exact ih hrest
  | case7 c d rest hclose hescape ih =>
    rcases List.mem_cons.1 h with rfl | hrest
    · exact ⟨hclose, hescape⟩
    · exact ih hrest

end ClassBody

theorem isNameStart_of_isReserved : ∀ c : Char, isReserved c = true → isNameStart c = false := by
  simp only [isReserved, List.contains_eq_mem, List.mem_cons, List.not_mem_nil, or_false,
    decide_eq_true_eq, forall_eq_or_imp, forall_eq]
  decide

theorem isWordChar_of_isNameStart {c : Char} (h : isNameStart c = true) : isWordChar c = true := by
  simp only [isNameStart, isWordChar, Char.isAlphanum, Bool.or_eq_true] at h ⊢
  exact h.imp_left .inl

theorem isWordChar_of_isWhiteSpace {c : Char} (h : isWhiteSpace c = true) :
    isWordChar c = false := by
  rw [← Bool.not_eq_true]
  intro hword
  simp only [isWhiteSpace, whiteSpaceRanges, List.any_cons, List.any_nil, Bool.or_false,
    Bool.or_eq_true, Bool.and_eq_true, decide_eq_true_eq] at h
  delta isWordChar Char.isAlphanum Char.isAlpha Char.isUpper Char.isLower Char.isDigit at hword
  simp only [Bool.or_eq_true, Bool.and_eq_true, decide_eq_true_eq, ge_iff_le,
    UInt32.le_iff_toNat_le, Char.reduceVal, UInt32.reduceToNat, Char.toNat_val] at hword
  rcases hword with hcode | rfl
  · omega
  · revert h
    decide

namespace Scan

variable {c : Char} {l : Lexeme} {n : Nat}

attribute [simp] ofText

theorem ofText_other (hreserved : isReserved c = false)
    (hdefine : ¬ [':', ':', '='] <+: c :: rest) :
    ofText (c :: rest) =
      if isNameStart c then
        lexeme (.name (String.ofList ((c :: rest).takeWhile isWordChar)))
          ((c :: rest).takeWhile isWordChar).length
      else if ((c :: rest).takeWhile isFree).isEmpty then fault .unexpectedCharacter 0 0
      else lexeme (.literal (String.ofList ((c :: rest).takeWhile isFree)))
        ((c :: rest).takeWhile isFree).length := by
  rw [ofText, if_neg]
  · rintro (rfl | rfl) <;> exact absurd hreserved (by decide)
  · rintro after rfl rfl
    exact hdefine ⟨after, rfl⟩
  all_goals
    rintro rfl
    exact absurd hreserved (by decide)

theorem ofText_quote (h : c = '"' ∨ c = '\'') :
    ofText (c :: rest) = match quoted c rest with
      | some (content, n) => lexeme (.literal (String.ofList content)) (n + 1)
      | none => fault .openString 0 (rest.length + 1) := by
  have hread : ofText (c :: rest) =
      if c = '"' ∨ c = '\'' then
        match quoted c rest with
        | some (content, n) => lexeme (.literal (String.ofList content)) (n + 1)
        | none => fault .openString 0 (rest.length + 1)
      else ofText (c :: rest) := by
    rcases h with rfl | rfl <;> rfl
  rw [hread, if_pos h]

theorem ofText_counted {inside : List Char} (h : '\x7d' ∉ inside) :
    ofText ('\x7b' :: (inside ++ '\x7d' :: rest)) =
      labelled (.quantifier (.counted (String.ofList ('\x7b' :: (inside ++ ['\x7d'])))))
        (inside.length + 2) rest := by
  have hinside : (inside ++ '\x7d' :: rest).takeWhile (· ≠ '\x7d') = inside := by
    refine takeWhile_of_stops (fun c hc => ?_) (fun c hc => ?_)
    · exact decide_eq_true fun heq => h (heq ▸ hc)
    · obtain rfl := Option.some.inj hc
      exact decide_eq_false fun hne => hne rfl
  rw [ofText, hinside, List.drop_left]
  rfl

theorem ofText_append (h : l.Spelled cs rest.head?) :
    ofText (cs ++ rest) = .lexeme l cs.length := by
  generalize hnext : rest.head? = next at h
  cases h with
  | @name c cs _ hstart hword hstops =>
    have hall : ∀ d ∈ c :: cs, isWordChar d = true :=
      List.forall_mem_cons.2 ⟨isWordChar_of_isNameStart hstart, hword⟩
    have hreserved : isReserved c = false := by
      rw [← Bool.not_eq_true]
      exact fun h => absurd (isNameStart_of_isReserved c h) (by simp [hstart])
    have hdefine : ¬ [':', ':', '='] <+: c :: (cs ++ rest) := by
      rintro ⟨after, heq⟩
      obtain ⟨rfl, -⟩ := List.cons.inj heq
      exact absurd hstart (by decide)
    rw [List.cons_append, ofText_other hreserved hdefine, if_pos hstart, ← List.cons_append,
      takeWhile_of_stops hall (hnext ▸ hstops)]
  | @quoted quote atoms _ hquote hinside =>
    have hescape : quote ≠ '\\' := by rcases hquote with rfl | rfl <;> decide
    rw [List.cons_append, List.append_assoc, ofText_quote hquote, List.singleton_append,
      quoted_append hescape hinside]
    simp
  | @free c cs _ hfree hname hdefine hcomment hstops =>
    have hreserved : isReserved c = false := by
      have := hfree c List.mem_cons_self
      simp only [isFree, Bool.and_eq_true, Bool.not_eq_true'] at this
      exact this.2
    -- the run goes on through the sign
    have hdefine' : ¬ [':', ':', '='] <+: c :: cs ++ rest := by
      rintro ⟨after, heq⟩
      refine hdefine ⟨after.takeWhile isFree, ?_⟩
      rw [← takeWhile_of_stops hfree (hnext ▸ hstops), ← heq,
        List.takeWhile_append_of_pos (List.all_eq_true.1 rfl)]
    rw [List.cons_append] at hdefine' ⊢
    rw [ofText_other hreserved hdefine', if_neg (by simp [hname]), ← List.cons_append,
      takeWhile_of_stops hfree (hnext ▸ hstops), if_neg (by simp)]
  | @charClass atoms _ hinside =>
    rw [List.cons_append, List.append_assoc, List.singleton_append, ofText,
      ClassBody.read_append hinside]
    simp [ClassBody.spelling]
  | @counted inside cs label _ hinside hlabel =>
    simp only [List.cons_append, List.append_assoc, List.nil_append]
    rw [ofText_counted hinside, labelled_append (hnext ▸ hlabel)]
    simp only [List.length_cons, List.length_append]
    congr 1
    omega
  | optional hlabel =>
    rw [List.cons_append, ofText, labelled_append (hnext ▸ hlabel), List.length_cons, Nat.add_comm]
  | oneOrMore hlabel =>
    rw [List.cons_append, ofText, labelled_append (hnext ▸ hlabel), List.length_cons, Nat.add_comm]
  | any hlabel =>
    rw [List.cons_append, ofText, labelled_append (hnext ▸ hlabel), List.length_cons, Nat.add_comm]
  | closing hlabel =>
    rw [List.cons_append, ofText, labelled_append (hnext ▸ hlabel), List.length_cons, Nat.add_comm]
  | opening => rfl
  | define => rfl
  | bar => rfl
  | lookAhead => rfl
  | negativeLookAhead => rfl
  | cut => rfl

/-- What is found at the head of a text is spelled there. -/
def Finds (text : List Char) (l : Lexeme) (n : Nat) : Prop :=
  ∃ cs rest, text = cs ++ rest ∧ n = cs.length ∧ l.Spelled cs rest.head?

theorem finds_fixed (mark : List Char) {behind : List Char} {l' : Lexeme}
    (h : Scan.lexeme l' mark.length = .lexeme l n) (hspelled : ∀ {next}, l'.Spelled mark next) :
    Finds (mark ++ behind) l n := by
  obtain ⟨rfl, rfl⟩ := Scan.lexeme.inj h
  exact ⟨mark, behind, rfl, rfl, hspelled⟩

theorem finds_labelled {build : Option String → Lexeme} (mark : List Char) {behind : List Char}
    (h : labelled build mark.length behind = .lexeme l n)
    (hspelled : ∀ {label cs next}, LabelSpelled label cs next →
      (build label).Spelled (mark ++ cs) next) : Finds (mark ++ behind) l n := by
  obtain ⟨label, cs, rest, rfl, rfl, rfl, hlabel⟩ := exists_of_labelled h
  exact ⟨mark ++ cs, rest, (List.append_assoc ..).symm, List.length_append.symm, hspelled hlabel⟩

theorem finds_quoted (hquote : c = '"' ∨ c = '\'') (h : ofText (c :: rest) = .lexeme l n) :
    Finds (c :: rest) l n := by
  rw [ofText_quote hquote] at h
  cases hread : quoted c rest with
  | none =>
    rw [hread] at h
    cases h
  | some found =>
    rw [hread] at h
    obtain ⟨rfl, rfl⟩ := Scan.lexeme.inj h
    obtain ⟨atoms, behind, hrest, hcontent, hlength, hinside⟩ := exists_of_quoted hread
    rw [hcontent]
    refine ⟨_, behind, ?_, ?_, .quoted hquote hinside⟩
    · rw [hrest, List.cons_append, List.append_assoc, List.singleton_append]
    · rw [hlength, List.length_cons, List.length_append, List.length_singleton]

theorem finds_charClass (h : ofText ('[' :: rest) = .lexeme l n) : Finds ('[' :: rest) l n := by
  rw [ofText] at h
  split at h
  · next hclosed =>
    obtain ⟨rfl, rfl⟩ := Scan.lexeme.inj h
    obtain ⟨behind, hrest⟩ := ClassBody.eq_spelling_append hclosed
    refine ⟨_, behind, ?_, ?_, .charClass fun _ => ClassBody.isInside_of_mem_read⟩
    · rw [List.cons_append, List.append_assoc, List.singleton_append]
      exact congrArg _ hrest
    · rw [List.length_cons, List.length_append, List.length_singleton]
      rfl
  · cases h

theorem finds_counted (h : ofText ('\x7b' :: rest) = .lexeme l n) :
    Finds ('\x7b' :: rest) l n := by
  by_cases hclosed : '\x7d' ∈ rest
  · obtain ⟨inside, behind, rfl, hinside⟩ := List.eq_append_cons_of_mem hclosed
    rw [ofText_counted hinside] at h
    have hlength : inside.length + 2 = ('\x7b' :: (inside ++ ['\x7d'])).length := by simp
    rw [hlength] at h
    have hfinds := finds_labelled _ h (.counted hinside)
    rwa [List.cons_append, List.append_assoc, List.singleton_append] at hfinds
  · have hinside : rest.takeWhile (· ≠ '\x7d') = rest :=
      List.takeWhile_eq_self_iff.2 fun c hc => decide_eq_true fun heq => hclosed (heq ▸ hc)
    rw [ofText, hinside, List.drop_length] at h
    cases h

theorem finds_other (hreserved : isReserved c = false) (hdefine : ¬ [':', ':', '='] <+: c :: rest)
    (hstop : ¬ StartsTrivia (c :: rest)) (h : ofText (c :: rest) = .lexeme l n) :
    Finds (c :: rest) l n := by
  have run : ∀ p : Char → Bool, p c = true → (c :: rest).takeWhile p = c :: rest.takeWhile p :=
    fun p hp => List.takeWhile_cons_of_pos hp
  rw [ofText_other hreserved hdefine] at h
  split at h
  · next hname =>
    rw [run _ (isWordChar_of_isNameStart hname)] at h
    obtain ⟨rfl, rfl⟩ := Scan.lexeme.inj h
    refine ⟨_, rest.dropWhile isWordChar, ?_, rfl,
      .name hname (fun _ => List.mem_takeWhile_imp) stops_dropWhile⟩
    rw [List.cons_append, List.takeWhile_append_dropWhile]
  · next hname =>
    split at h
    · cases h
    · next hsome =>
      have hfree : isFree c = true := by
        by_contra hfree
        rw [List.takeWhile_cons_of_neg hfree] at hsome
        exact hsome rfl
      rw [run _ hfree] at h
      obtain ⟨rfl, rfl⟩ := Scan.lexeme.inj h
      have htext : c :: rest.takeWhile isFree ++ rest.dropWhile isFree = c :: rest := by
        rw [List.cons_append, List.takeWhile_append_dropWhile]
      refine ⟨_, rest.dropWhile isFree, htext.symm, rfl, .free ?_ (Bool.eq_false_iff.2 hname) ?_ ?_
        stops_dropWhile⟩
      · exact List.forall_mem_cons.2 ⟨hfree, fun _ => List.mem_takeWhile_imp⟩
      · exact fun hsign => hdefine (htext ▸ hsign.trans (List.prefix_append ..))
      · rwa [startsTrivia_append_head?, htext]

theorem finds_ofText {text : List Char} (h : ofText text = .lexeme l n) (hsome : text ≠ [])
    (hstop : ¬ StartsTrivia text) : Finds text l n := by
  match text, hsome with
  | c :: rest, _ =>
    by_cases hdefine : [':', ':', '='] <+: c :: rest
    · obtain ⟨behind, heq⟩ := hdefine
      rw [← heq] at h ⊢
      exact finds_fixed _ h .define
    by_cases hreserved : isReserved c = true
    · simp only [isReserved, List.contains_eq_mem, List.mem_cons, List.not_mem_nil, or_false,
        decide_eq_true_eq] at hreserved
      rcases hreserved with
        rfl | rfl | rfl | rfl | rfl | rfl | rfl | rfl | rfl | rfl | rfl | rfl | rfl
      · exact finds_labelled ['*'] h .any
      · exact finds_labelled ['+'] h .oneOrMore
      · exact finds_labelled ['?'] h .optional
      · exact finds_fixed ['|'] h .bar
      · exact finds_counted h
      · exact finds_charClass h
      · exact finds_quoted (.inl rfl) h
      · exact finds_quoted (.inr rfl) h
      · exact finds_fixed ['('] h .opening
      · exact finds_labelled [')'] h .closing
      · exact finds_fixed ['&'] h .lookAhead
      · exact finds_fixed ['!'] h .negativeLookAhead
      · exact finds_fixed ['~'] h .cut
    · exact finds_other (Bool.eq_false_iff.2 hreserved) hdefine hstop h

end Scan

namespace Lexeme.Spelled

variable {l l' : Lexeme} {next' : Option Char}

theorem ne_nil (h : l.Spelled cs next) : cs ≠ [] := by
  cases h <;> exact fun hnil => List.cons_ne_nil _ _ hnil

theorem ne_finish (h : l.Spelled cs next) : l ≠ .finish := by
  rintro rfl
  cases h

theorem not_startsTrivia (h : l.Spelled cs rest.head?) : ¬ StartsTrivia (cs ++ rest) := by
  generalize hnext : rest.head? = next at h
  -- where a mark or a letter comes first, that character tells
  have first : ∀ {c cs}, c ≠ '/' → isWhiteSpace c = false → ¬ StartsTrivia (c :: cs) := by
    intro c cs hslash hspace hstarts
    rw [StartsTrivia.eq_2 _ _ fun _ _ heq _ => hslash heq, hspace] at hstarts
    exact Bool.false_ne_true hstarts
  cases h with
  | name hstart =>
    have hword := isWordChar_of_isNameStart hstart
    refine first (fun heq => ?_) (Bool.eq_false_iff.2 fun hspace => ?_)
    · exact absurd (heq ▸ hstart) (by decide)
    · exact absurd hword (Bool.eq_false_iff.1 (isWordChar_of_isWhiteSpace hspace))
  | free _ _ _ hcomment =>
    rwa [← hnext, startsTrivia_append_head?] at hcomment
  | quoted hquote => rcases hquote with rfl | rfl <;> exact first (by decide) (by decide)
  | _ => exact first (by decide) (by decide)

theorem beforeBreak (hnext' : ∀ c ∈ next', isWhiteSpace c = true) (h : l.Spelled cs next) :
    l.Spelled cs next' := by
  have stops : ∀ {p : Char → Bool}, (∀ c, isWhiteSpace c = true → p c = false) → Stops p next' :=
    fun hp c hc => hp c (hnext' c hc)
  have hword : Stops isWordChar next' := stops fun _ => isWordChar_of_isWhiteSpace
  have label : ∀ {label cs}, LabelSpelled label cs next → LabelSpelled label cs next' := by
    rintro label cs (hdot | ⟨hall, hsome⟩)
    · refine .absent ?_
      rintro rfl
      have hspace : isWhiteSpace '.' = true := hnext' _ rfl
      exact absurd hspace (by decide)
    · exact .word hall hsome hword
  cases h with
  | name hstart hall => exact .name hstart hall hword
  | quoted hquote hinside => exact .quoted hquote hinside
  | @free c cs _ hfree hname hdefine hcomment =>
    exact .free hfree hname hdefine (mt (startsTrivia_append hnext') hcomment)
      (stops fun c hspace => by simp [isFree, hspace])
  | charClass hinside => exact .charClass hinside
  | counted hinside hlabel => exact .counted hinside (label hlabel)
  | optional hlabel => exact .optional (label hlabel)
  | oneOrMore hlabel => exact .oneOrMore (label hlabel)
  | any hlabel => exact .any (label hlabel)
  | closing hlabel => exact .closing (label hlabel)
  | opening => exact .opening
  | define => exact .define
  | bar => exact .bar
  | lookAhead => exact .lookAhead
  | negativeLookAhead => exact .negativeLookAhead
  | cut => exact .cut

theorem unique (h : l.Spelled cs next) (h' : l'.Spelled cs next') : l = l' := by
  have hread : Scan.ofText (cs ++ []) = .lexeme l cs.length :=
    Scan.ofText_append (h.beforeBreak (by simp))
  have hread' : Scan.ofText (cs ++ []) = .lexeme l' cs.length :=
    Scan.ofText_append (h'.beforeBreak (by simp))
  exact (Scan.lexeme.inj (hread.symm.trans hread')).1

end Lexeme.Spelled

end Ebnf
