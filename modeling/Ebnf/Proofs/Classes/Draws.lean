import Ebnf.Proofs.Classes.Sizes
import Mathlib.Algebra.Order.Floor.Div

/-! Words counted by what they stand for. The words that a range turns into one of its offsets
follow each other, and there are as many of them for each offset: a power of two, as the zone is a
multiple of the range. Offsets that are no character are drawn again, so all characters of a range
are drawn from equally many words, and so are all places of a list. -/

namespace Ebnf

namespace Uniform

variable {width range word i : Nat}

/-- How many words stand for one offset. -/
def share (width range : Nat) : Nat := 2 ^ (width - (range.log2 + 1))

theorem share_pos : 0 < share width range := Nat.two_pow_pos _

theorem zone_eq : zone width range = range * share width range - 1 := rfl

theorem mul_share_le (hle : range ≤ 2 ^ width) : range * share width range ≤ 2 ^ width := by
  rcases Nat.lt_or_ge range.log2 width with hlt | hge
  · have hdoubled : 2 ^ (range.log2 + 1) * share width range = 2 ^ width := by
      rw [share, ← Nat.pow_add]
      congr 1
      omega
    rw [← hdoubled]
    exact Nat.mul_le_mul_right _ Nat.lt_log2_self.le
  · rw [share, Nat.sub_eq_zero_of_le (by omega), pow_zero, mul_one]
    exact hle

theorem accept_eq_some_iff (hrange : 0 < range) (hle : range ≤ 2 ^ width) :
    accept width range word = some i ↔
      i * 2 ^ width ≤ word * range ∧ word * range < i * 2 ^ width + range * share width range := by
  have hshare := mul_share_le hle
  have hpos : 0 < range * share width range := Nat.mul_pos hrange share_pos
  have hsplit := Nat.div_add_mod (word * range) (2 ^ width)
  have haccept : accept width range word = some i ↔
      word * range % 2 ^ width < range * share width range ∧ word * range / 2 ^ width = i := by
    rw [← Nat.le_sub_one_iff_lt hpos, ← zone_eq]
    simp only [accept, Nat.pow_eq, Option.ite_none_right_eq_some, Option.some.injEq]
  rw [haccept]
  constructor
  · rintro ⟨hlt, rfl⟩
    rw [Nat.mul_comm] at hsplit
    omega
  · rintro ⟨hfrom, hto⟩
    have hdiv : word * range / 2 ^ width = i := by
      apply Nat.div_eq_of_lt_le hfrom
      rw [Nat.succ_mul]
      omega
    rw [hdiv, Nat.mul_comm] at hsplit
    exact ⟨by omega, hdiv⟩

theorem accepted_eq (hi : i < range) (hle : range ≤ 2 ^ width) :
    {word | word < 2 ^ width ∧ accept width range word = some i} =
      Set.Ico (i * 2 ^ width ⌈/⌉ range) (i * 2 ^ width ⌈/⌉ range + share width range) := by
  have hrange : 0 < range := Nat.zero_lt_of_lt hi
  have hfrom : ∀ word, i * 2 ^ width ⌈/⌉ range ≤ word ↔ i * 2 ^ width ≤ word * range := by
    intro word
    rw [ceilDiv_le_iff_le_mul hrange, Nat.mul_comm range]
  have hto : ∀ word, i * 2 ^ width ⌈/⌉ range + share width range ≤ word ↔
      i * 2 ^ width + range * share width range ≤ word * range := by
    intro word
    rw [Nat.mul_comm range]
    constructor
    · intro h
      have hless := (hfrom (word - share width range)).1 (by omega)
      have hmul := Nat.mul_le_mul_right range (show share width range ≤ word by omega)
      rw [Nat.sub_mul] at hless
      omega
    · intro h
      have hmul : share width range ≤ word := Nat.le_of_mul_le_mul_right (by omega) hrange
      have hless : i * 2 ^ width ⌈/⌉ range ≤ word - share width range := by
        rw [hfrom, Nat.sub_mul]
        omega
      omega
  ext word
  rw [Set.mem_ofPred_eq, accept_eq_some_iff hrange hle, Set.mem_Ico, hfrom,
    lt_iff_lt_of_le_iff_le (hto word)]
  constructor
  · exact fun h => h.2
  · intro h
    refine ⟨?_, h⟩
    have hshare := mul_share_le hle
    have hnext : (i + 1) * 2 ^ width ≤ range * 2 ^ width := Nat.mul_le_mul_right _ hi
    rw [Nat.succ_mul] at hnext
    apply Nat.lt_of_mul_lt_mul_right (a := range)
    rw [Nat.mul_comm (2 ^ width)]
    omega

theorem count_accepted (hi : i < range) (hle : range ≤ 2 ^ width) :
    {word | word < 2 ^ width ∧ accept width range word = some i}.ncard = share width range := by
  rw [accepted_eq hi hle, ← Finset.coe_Ico, Set.ncard_coe_finset, Nat.card_Ico,
    Nat.add_sub_cancel_left]

theorem count_words {α : Type} {code : α → Nat} (hinj : Function.Injective code)
    (hrange : Set.range code = {word | word < 2 ^ width}) (hi : i < range)
    (hle : range ≤ 2 ^ width) :
    {word | accept width range (code word) = some i}.ncard = share width range := by
  have hset : {word | accept width range (code word) = some i} =
      Set.preimage code {word | word < 2 ^ width ∧ accept width range word = some i} := by
    ext word
    have hword : code word ∈ {word | word < 2 ^ width} := hrange ▸ Set.mem_range_self word
    exact (and_iff_right hword).symm
  rw [hset, Set.ncard_preimage_of_injective_subset_range hinj, count_accepted hi hle]
  rintro word ⟨hword, -⟩
  rw [hrange]
  exact hword

theorem count_accepted32 (hi : i < range) (hle : range ≤ UInt32.size) :
    {word : UInt32 | accept32 range word.toUInt64 = some i}.ncard = share 32 range := by
  have hlow : ∀ word : UInt32, accept32 range word.toUInt64 = accept 32 range word.toNat := by
    intro word
    rw [accept32, UInt32.toNat_toUInt64, Nat.mod_eq_of_lt word.toNat_lt]
  simp only [hlow]
  apply count_words (fun _ _ => UInt32.toNat_inj.1) _ hi hle
  ext word
  refine ⟨?_, fun hword => ⟨UInt32.ofNatLT word hword, UInt32.toNat_ofNatLT⟩⟩
  rintro ⟨word, rfl⟩
  exact word.toNat_lt

theorem count_accepted64 (hi : i < range) (hle : range ≤ UInt64.size) :
    {word : UInt64 | accept64 range word = some i}.ncard = share 64 range := by
  apply count_words (fun _ _ => UInt64.toNat_inj.1) _ hi hle
  ext word
  refine ⟨?_, fun hword => ⟨UInt64.ofNatLT word hword, UInt64.toNat_ofNatLT⟩⟩
  rintro ⟨word, rfl⟩
  exact word.toNat_lt

end Uniform

namespace Words

inductive Redraws {α : Type} (words : Words) (accept : UInt64 → Option α) : Nat → α → Nat → Prop
  | accepted {used : Nat} {a : α} : accept (words used) = some a →
      Redraws words accept used a (used + 1)
  | rejected {used used' : Nat} {a : α} : accept (words used) = none →
      Redraws words accept (used + 1) a used' → Redraws words accept used a used'

variable {α : Type} {words : Words} {accept : UInt64 → Option α} {a : α} {patience used used' : Nat}

theorem Redraws.lt (h : words.Redraws accept used a used') : used < used' := by
  induction h with
  | accepted => exact Nat.lt_succ_self _
  | rejected _ _ ih => exact Nat.lt_of_succ_lt ih

theorem Redraws.exists_word (h : words.Redraws accept used a used') :
    ∃ word, accept word = some a := by
  induction h with
  | accepted hword => exact ⟨_, hword⟩
  | rejected _ _ ih => exact ih

theorem drawUntil_eq_some_iff : words.drawUntil accept patience used = some (a, used') ↔
    words.Redraws accept used a used' ∧ used' ≤ used + patience := by
  constructor
  · intro h
    induction patience generalizing used with
    | zero => cases h
    | succ k ih =>
      rw [drawUntil] at h
      split at h
      · next hword =>
        cases h
        exact ⟨.accepted hword, by omega⟩
      · next hword =>
        obtain ⟨hrest, hle⟩ := ih h
        exact ⟨.rejected hword hrest, by omega⟩
  · rintro ⟨h, hle⟩
    induction h generalizing patience with
    | accepted hword => exact exists_drawUntil (by omega) hword
    | @rejected used used' a hword hrest ih =>
      have hlt := hrest.lt
      obtain ⟨k, rfl⟩ : ∃ k, patience = k + 1 := ⟨patience - 1, by omega⟩
      rw [drawUntil, hword]
      exact ih (by omega)

end Words

def IsSurrogate (code : Nat) : Prop := 0xD800 ≤ code ∧ code ≤ 0xDFFF

namespace CharPart

/-- The character of a range that a word stands for, unless the word is rejected. -/
def ofWord (first last : Char) (word : UInt64) : Option Char :=
  (Uniform.accept32 (range first last).size word).bind fun i => charAt? (first.toNat + i)

variable {words : Words} {p : CharPart} {first last c : Char} {code used used' : Nat}

theorem charAt?_eq_some : charAt? code = some c ↔ code = c.toNat := by
  unfold charAt?
  constructor
  · intro h
    split at h
    · next hvalid =>
      obtain rfl := Option.some.inj h
      rw [Char.ofNat, dif_pos hvalid]
      rfl
    · cases h
  · rintro rfl
    have hvalid : c.toNat.isValidChar := c.valid
    rw [if_pos hvalid, Char.ofNat_toNat]

theorem charAt?_eq_none (hle : code ≤ c.toNat) : charAt? code = none ↔ IsSurrogate code := by
  have hvalid : c.toNat < 0xD800 ∨ 0xDFFF < c.toNat ∧ c.toNat < 0x110000 := c.valid
  have hcode : code.isValidChar ↔ code < 0xD800 ∨ 0xDFFF < code ∧ code < 0x110000 := Iff.rfl
  rw [charAt?, ite_eq_right_iff, IsSurrogate]
  simp only [reduceCtorEq, imp_false, hcode]
  omega

theorem size_range_le : (range first last).size ≤ UInt32.size := by
  have hvalid : last.toNat < 0xD800 ∨ 0xDFFF < last.toNat ∧ last.toNat < 0x110000 := last.valid
  have hsize : (range first last).size = last.toNat - first.toNat + 1 := rfl
  have hwords : UInt32.size = 4294967296 := rfl
  omega

theorem ofWord_cases (hle : first ≤ last) (word : UInt64) :
    (∃ c, ofWord first last word = some c ∧ (range first last).contains c = true) ∨
      ofWord first last word = none ∧
        ∀ i, Uniform.accept32 (range first last).size word = some i →
          IsSurrogate (first.toNat + i) := by
  cases haccept : Uniform.accept32 (range first last).size word with
  | none => exact .inr ⟨by rw [ofWord, haccept]; rfl, nofun⟩
  | some i =>
    have hi : i < (range first last).size := Uniform.lt_of_accept32 haccept (Nat.succ_pos _)
    have hword : ofWord first last word = charAt? (first.toNat + i) := by
      rw [ofWord, haccept]
      rfl
    cases hchar : charAt? (first.toNat + i) with
    | some c => exact .inl ⟨c, hword.trans hchar, contains_of_charAt? hle hi hchar⟩
    | none =>
      refine .inr ⟨hword.trans hchar, ?_⟩
      rintro _ ⟨⟩
      have horder : first.toNat ≤ last.toNat := hle
      have hsize : (range first last).size = last.toNat - first.toNat + 1 := rfl
      exact (charAt?_eq_none (c := last) (by omega)).1 hchar

theorem ofWord_eq_some (hc : (range first last).contains c = true) (word : UInt64) :
    ofWord first last word = some c ↔
      Uniform.accept32 (range first last).size word = some (c.toNat - first.toNat) := by
  have hfirst : first.toNat ≤ c.toNat := of_decide_eq_true (Bool.and_eq_true_iff.1 hc).1
  rw [ofWord, Option.bind_eq_some_iff]
  constructor
  · rintro ⟨i, hi, hchar⟩
    rw [← charAt?_eq_some.1 hchar, Nat.add_sub_cancel_left]
    exact hi
  · intro hi
    refine ⟨_, hi, charAt?_eq_some.2 ?_⟩
    omega

theorem count_words_ofWord (hc : (range first last).contains c = true) :
    {word : UInt32 | ofWord first last word.toUInt64 = some c}.ncard =
      Uniform.share 32 (range first last).size := by
  have hfirst : first.toNat ≤ c.toNat := of_decide_eq_true (Bool.and_eq_true_iff.1 hc).1
  have hlast : c.toNat ≤ last.toNat := of_decide_eq_true (Bool.and_eq_true_iff.1 hc).2
  have hsize : (range first last).size = last.toNat - first.toNat + 1 := rfl
  simp only [ofWord_eq_some hc]
  exact Uniform.count_accepted32 (by omega) size_range_le

/-- A draw from a part, with no bound on the words that are rejected. -/
inductive Draws (words : Words) (used : Nat) : CharPart → Option Char → Nat → Prop
  | range {first last c : Char} {used' : Nat} : words.Redraws (ofWord first last) used c used' →
      Draws words used (.range first last) (some c) used'
  | nothing : Draws words used (.choice []) none used
  | choice {chars : List Char} {i used' : Nat} : chars ≠ [] →
      words.Redraws (Uniform.accept64 chars.length) used i used' →
        Draws words used (.choice chars) chars[i]? used'

theorem draw_eq_some_iff {c : Option Char} : p.draw words used = some (c, used') ↔
    p.Draws words used c used' ∧ used' ≤ used + Words.patience := by
  cases p with
  | range first last =>
    have hdraw : (range first last).draw words used =
        (words.drawUntil (ofWord first last) Words.patience used).map
          fun drawn => (some drawn.1, drawn.2) := rfl
    simp only [hdraw, Option.map_eq_some_iff, Prod.exists, Prod.mk.injEq,
      Words.drawUntil_eq_some_iff]
    constructor
    · rintro ⟨ch, n, ⟨hdrawn, hle⟩, rfl, rfl⟩
      exact ⟨.range hdrawn, hle⟩
    · rintro ⟨hdraws, hle⟩
      cases hdraws with
      | range hdrawn => exact ⟨_, _, ⟨hdrawn, hle⟩, rfl, rfl⟩
  | choice chars =>
    cases chars with
    | nil =>
      constructor
      · rintro ⟨⟩
        exact ⟨.nothing, Nat.le_add_right ..⟩
      · rintro ⟨hdraws, -⟩
        cases hdraws with
        | nothing => rfl
        | choice hne => exact absurd rfl hne
    | cons x xs =>
      simp only [draw, Option.map_eq_some_iff, Prod.exists, Prod.mk.injEq,
        Words.drawUntil_eq_some_iff]
      constructor
      · rintro ⟨i, n, ⟨hdrawn, hle⟩, rfl, rfl⟩
        exact ⟨.choice (List.cons_ne_nil x xs) hdrawn, hle⟩
      · rintro ⟨hdraws, hle⟩
        cases hdraws with
        | choice _ hdrawn => exact ⟨_, _, ⟨hdrawn, hle⟩, rfl, rfl⟩

theorem Draws.contains {c : Option Char} (hp : p.IsSound) (h : p.Draws words used c used') :
    ∃ ch, c = some ch ∧ p.contains ch = true := by
  cases h with
  | @range first last c _ hdrawn =>
    obtain ⟨word, hword⟩ := hdrawn.exists_word
    refine ⟨c, rfl, ?_⟩
    rcases ofWord_cases hp word with ⟨c', hc', hin⟩ | ⟨hnone, -⟩
    · rw [hword] at hc'
      rwa [Option.some.inj hc']
    · rw [hword] at hnone
      cases hnone
  | nothing => exact absurd rfl hp
  | @choice chars i _ hne hdrawn =>
    obtain ⟨word, hword⟩ := hdrawn.exists_word
    have hlt : i < chars.length := Uniform.lt_of_accept64 hword (List.length_pos_iff.2 hne)
    exact ⟨chars[i], List.getElem?_eq_getElem hlt, List.contains_iff_mem.2 (List.getElem_mem hlt)⟩

end CharPart

namespace CharClass

open CharPart

/-- A draw from a class, with no bound on the words that are rejected. -/
inductive Draws (words : Words) (s : CharClass) (used : Nat) : Option Char → Nat → Prop
  | unsized : s.sizes? = none → Draws words s used none used
  | nothing {d : Distribution} {used' : Nat} : s.sizes? = some d →
      d.sample words used = (none, used') → Draws words s used none used'
  | absent {d : Distribution} {i used' : Nat} : s.sizes? = some d →
      d.sample words used = (some i, used') → s.parts[i]? = none → Draws words s used none used'
  | part {d : Distribution} {i used' used'' : Nat} {p : CharPart} {c : Option Char} :
      s.sizes? = some d → d.sample words used = (some i, used') → s.parts[i]? = some p →
        p.Draws words used' c used'' → Draws words s used c used''

variable {words : Words} {s : CharClass} {used used' : Nat} {c : Option Char}

theorem exists_part_draws (hs : s.IsSound) (words : Words) (used : Nat) : ∃ p ∈ s.parts,
    s.draw words used = p.draw words (used + 1) ∧
      ∀ c used', s.Draws words used c used' ↔ p.Draws words (used + 1) c used' := by
  obtain ⟨d, hsizes, hlen, hviable⟩ := exists_sizes hs
  have hsample : d.sample words used = (some (d.pick (words used)), used + 1) := if_pos hviable
  have hlt := Distribution.lt_of_sample hsample
  rw [hlen] at hlt
  have hpart := List.getElem?_eq_getElem hlt
  refine ⟨_, List.getElem_mem hlt, ?_, fun c used' => ⟨fun h => ?_, .part hsizes hsample hpart⟩⟩
  · simp only [draw, hsizes, hsample, hpart]
  · cases h with
    | unsized hnone =>
      rw [hsizes] at hnone
      cases hnone
    | nothing hsizes' hnone =>
      obtain rfl := Option.some.inj (hsizes.symm.trans hsizes')
      cases hsample.symm.trans hnone
    | absent hsizes' hsample' hnone =>
      obtain rfl := Option.some.inj (hsizes.symm.trans hsizes')
      cases hsample.symm.trans hsample'
      cases hpart.symm.trans hnone
    | part hsizes' hsample' hpart' hdraws =>
      obtain rfl := Option.some.inj (hsizes.symm.trans hsizes')
      cases hsample.symm.trans hsample'
      obtain rfl := Option.some.inj (hpart.symm.trans hpart')
      exact hdraws

theorem draw_eq_some_iff (hs : s.IsSound) : s.draw words used = some (c, used') ↔
    s.Draws words used c used' ∧ used' ≤ used + 1 + Words.patience := by
  obtain ⟨p, -, hdraw, hdraws⟩ := exists_part_draws hs words used
  rw [hdraw, hdraws]
  exact CharPart.draw_eq_some_iff

theorem Draws.contains (hs : s.IsSound) (h : s.Draws words used c used') :
    ∃ ch, c = some ch ∧ s.contains ch = true := by
  obtain ⟨p, hp, -, hdraws⟩ := exists_part_draws hs words used
  obtain ⟨ch, hc, hin⟩ := ((hdraws c used').1 h).contains (hs.2 p hp)
  exact ⟨ch, hc, List.any_eq_true.2 ⟨p, hp, hin⟩⟩

/-- Every word stands for a character of a range or is drawn again, each character has the same
number of words, and so has each place of a list. Hence a draw from a class that was read, however
many words it draws again, can only give one of its characters. -/
theorem evenly_drawn :
    (∀ first last : Char, first ≤ last →
      (∀ word, (∃ c, ofWord first last word = some c ∧ (range first last).contains c = true) ∨
        ofWord first last word = none ∧
          ∀ i, Uniform.accept32 (range first last).size word = some i →
            IsSurrogate (first.toNat + i)) ∧
      ∃ n, 0 < n ∧ ∀ c, (range first last).contains c = true →
        {word : UInt32 | ofWord first last word.toUInt64 = some c}.ncard = n) ∧
    (∀ chars : List Char, chars ≠ [] → chars.length ≤ UInt64.size → ∃ n, 0 < n ∧
      ∀ i < chars.length, {word : UInt64 | Uniform.accept64 chars.length word = some i}.ncard = n) ∧
    (∀ p words used c used', CharPart.draw words p used = some (c, used') ↔
      p.Draws words used c used' ∧ used' ≤ used + Words.patience) ∧
    ∀ source s, parse source = .ok s → ∀ words used c used',
      (s.draw words used = some (c, used') ↔
        s.Draws words used c used' ∧ used' ≤ used + 1 + Words.patience) ∧
      (s.Draws words used c used' → ∃ ch, c = some ch ∧ s.contains ch = true) := by
  refine ⟨fun first last hle => ⟨ofWord_cases hle, ?_⟩, fun chars _ hle => ?_,
    fun _ _ _ _ _ => CharPart.draw_eq_some_iff, fun source s hs words used c used' => ?_⟩
  · exact ⟨_, Uniform.share_pos, fun c hc => count_words_ofWord hc⟩
  · exact ⟨_, Uniform.share_pos, fun i hi => Uniform.count_accepted64 hi hle⟩
  · have hsound := isSound_parse hs
    exact ⟨draw_eq_some_iff hsound, Draws.contains hsound⟩

theorem evenly_drawn_acrossSurrogates :
    (∃ n, 0 < n ∧ ∀ c, (range '\uD7FF' '\uE000').contains c = true →
      {word : UInt32 | ofWord '\uD7FF' '\uE000' word.toUInt64 = some c}.ncard = n) ∧
    (∃ n, 0 < n ∧ ∀ i < 3, {word : UInt64 | Uniform.accept64 3 word = some i}.ncard = n) ∧
    ∃ ch used, acrossSurrogates.draw (fun _ => 0) 0 = some (some ch, used) ∧
      acrossSurrogates.contains ch = true := by
  refine ⟨(evenly_drawn.1 '\uD7FF' '\uE000' (by decide)).2,
    evenly_drawn.2.1 ['a', 'b', 'c'] (List.cons_ne_nil _ _) (by decide), ?_⟩
  obtain ⟨⟨c, used⟩, hdraw⟩ := exists_draw_zero acrossSurrogates 0
  obtain ⟨hiff, hcontains⟩ := evenly_drawn.2.2.2 _ _ parse_acrossSurrogates (fun _ => 0) 0 c used
  obtain ⟨ch, rfl, hin⟩ := hcontains (hiff.1 hdraw).1
  exact ⟨ch, used, hdraw, hin⟩

end CharClass

end Ebnf
