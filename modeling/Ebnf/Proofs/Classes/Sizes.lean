import Ebnf.Proofs.Chance.Draw

/-! What the parts of a class weigh against the characters they have. A range weighs as much as it
has code points, and all of these but the surrogates are characters; so only a range over the
surrogates weighs more than its characters are. Where the parts have no character in common, drawing
a part by weight and then any of its characters gives all characters of the class the same share,
unless such a range stands beside another part. -/

namespace Ebnf

namespace CharPart

noncomputable def count (p : CharPart) : Nat := {c | p.contains c = true}.ncard

/-- A range that starts before the surrogates and ends behind them; these are 0x800 code points. -/
def Spans : CharPart → Prop
  | range first last => first.toNat < 0xD800 ∧ 0xDFFF < last.toNat
  | choice _ => False

instance : DecidablePred Spans
  | range first last => inferInstanceAs (Decidable (first.toNat < 0xD800 ∧ 0xDFFF < last.toNat))
  | choice _ => inferInstanceAs (Decidable False)

def Distinct : CharPart → Prop
  | range _ _ => True
  | choice chars => chars.Nodup

instance : DecidablePred Distinct
  | range _ _ => inferInstanceAs (Decidable True)
  | choice chars => inferInstanceAs (Decidable chars.Nodup)

def Apart (p q : CharPart) : Prop := ∀ c, p.contains c = true → q.contains c = false

variable {p q : CharPart} {first last c : Char}

theorem toNat_eq_ordinal (c : Char) :
    c.toNat = c.ordinal.val + if 0xDFFF < c.toNat then 0x800 else 0 := by
  have hvalid : c.toNat < 0xD800 ∨ 0xDFFF < c.toNat ∧ c.toNat < 0x110000 := c.valid
  have hordinal := @Char.coe_ordinal c
  change c.ordinal.val = if c.toNat < 0xD800 then c.toNat else c.toNat - 0x800 at hordinal
  split at hordinal <;> split <;> omega

theorem count_range (first last : Char) :
    (range first last).count = last.ordinal.val + 1 - first.ordinal.val := by
  have hset : {c | (range first last).contains c = true} =
      Set.preimage Char.ordinal (Finset.Icc first.ordinal last.ordinal) := by
    ext c
    simp [contains, Char.le_iff_ordinal_le]
  have hnumbered : (Finset.Icc first.ordinal last.ordinal : Set (Fin Char.numCodePoints)) ⊆
      Set.range Char.ordinal := fun i _ => ⟨Char.ofOrdinal i, Char.ordinal_ofOrdinal⟩
  rw [count, hset, Set.ncard_preimage_of_injective_subset_range Char.ordinal_injective hnumbered,
    Set.ncard_coe_finset, Fin.card_Icc]

theorem count_choice {chars : List Char} (h : chars.Nodup) :
    (choice chars).count = chars.length := by
  have hset : {c | (choice chars).contains c = true} = chars.toFinset := by
    ext c
    simp [contains]
  rw [count, hset, Set.ncard_coe_finset, List.toFinset_card_of_nodup h]

theorem size_eq (hp : p.IsSound) (hdistinct : p.Distinct) :
    p.size = p.count + if p.Spans then 0x800 else 0 := by
  cases p with
  | choice chars => exact (count_choice hdistinct).symm
  | range first last =>
    have horder : first.toNat ≤ last.toNat := hp
    have hordinals : first.ordinal.val ≤ last.ordinal.val := Char.ordinal_le_of_le hp
    have hfirst := toNat_eq_ordinal first
    have hlast := toNat_eq_ordinal last
    have hvalid : first.toNat < 0xD800 ∨ 0xDFFF < first.toNat ∧ first.toNat < 0x110000 :=
      first.valid
    rw [count_range, size]
    -- a range outside the surrogates has both its ends numbered with the same shift
    split
    · next hspans =>
      have hends : first.toNat < 0xD800 ∧ 0xDFFF < last.toNat := hspans
      split at hfirst <;> split at hlast <;> omega
    · next hspans =>
      have hends : ¬(first.toNat < 0xD800 ∧ 0xDFFF < last.toNat) := hspans
      split at hfirst <;> split at hlast <;> omega

theorem finite_char : Finite Char := Finite.of_injective Char.ordinal Char.ordinal_injective

theorem count_pos (hc : p.contains c = true) : 0 < p.count :=
  have := finite_char
  (Set.ncard_pos (Set.toFinite _)).2 ⟨c, hc⟩

theorem size_le (hp : p.IsSound) (hdistinct : p.Distinct) : p.size ≤ 0x110000 := by
  have := finite_char
  have hcount : p.count ≤ Nat.card Char := Set.ncard_le_card _
  have hchars := Nat.card_le_card_of_injective Char.ordinal Char.ordinal_injective
  have hordinals : Nat.card (Fin Char.numCodePoints) = 0x10F800 := Nat.card_fin _
  rw [size_eq hp hdistinct]
  split <;> omega

theorem contains_of_spans (h : p.Spans) : p.contains '\uE000' = true := by
  cases p with
  | choice => exact h.elim
  | range first last =>
    have hfirst : first.toNat ≤ 0xE000 := by have := h.1; omega
    have hlast : 0xE000 ≤ last.toNat := h.2
    exact Bool.and_eq_true_iff.2 ⟨decide_eq_true hfirst, decide_eq_true hlast⟩

theorem exists_contains (hp : p.IsSound) : ∃ c, p.contains c = true := by
  cases p with
  | range first last =>
    exact ⟨first, Bool.and_eq_true_iff.2 ⟨decide_eq_true (Char.le_refl _), decide_eq_true hp⟩⟩
  | choice chars =>
    obtain ⟨c, hc⟩ := List.exists_mem_of_ne_nil chars hp
    exact ⟨c, List.contains_iff_mem.2 hc⟩

theorem Apart.symm (h : p.Apart q) : q.Apart p := by
  intro c hc
  by_contra hp
  rw [h c (by simpa using hp)] at hc
  cases hc

theorem Apart.not_spans (h : p.Apart q) (hp : p.Spans) : ¬ q.Spans := by
  intro hq
  have hnot := h _ (contains_of_spans hp)
  rw [contains_of_spans hq] at hnot
  cases hnot

end CharPart

namespace CharClass

open CharPart

/-- No character is in two parts, and none is in a part twice. -/
structure IsDisjoint (s : CharClass) : Prop where
  apart : s.parts.Pairwise Apart
  distinct : ∀ p ∈ s.parts, p.Distinct

def weight (s : CharClass) : Nat := (s.parts.map size).sum

/-- The share of a character where a part is chosen by weight and then any character of it. -/
noncomputable def share (s : CharClass) (c : Char) : ℚ :=
  (s.parts.map fun p => if p.contains c then (p.size : ℚ) / s.weight / p.count else 0).sum

variable {source : String} {s : CharClass} {p : CharPart} {c : Char}

theorem IsDisjoint.forall_apart (h : s.IsDisjoint) {front back : List CharPart}
    (hparts : s.parts = front ++ p :: back) : ∀ q ∈ front ++ back, p.Apart q := by
  have happart := h.apart
  rw [hparts] at happart
  exact (List.pairwise_cons.1 (List.perm_middle.pairwise happart Apart.symm)).1

theorem IsDisjoint.share_eq (h : s.IsDisjoint) (hp : p ∈ s.parts) (hc : p.contains c = true) :
    s.share c = (p.size : ℚ) / s.weight / p.count := by
  obtain ⟨front, back, hparts⟩ := List.append_of_mem hp
  have hothers : ∀ x ∈ (front ++ back).map fun q =>
      if q.contains c then (q.size : ℚ) / s.weight / q.count else 0, x = 0 := by
    intro x hx
    obtain ⟨q, hq, rfl⟩ := List.mem_map.1 hx
    rw [h.forall_apart hparts q hq c hc]
    rfl
  have hperm : List.Perm (front ++ p :: back) (p :: (front ++ back)) := List.perm_middle
  rw [share, hparts, (hperm.map _).sum_eq, List.map_cons, List.sum_cons, List.sum_eq_zero hothers,
    if_pos hc, add_zero]

theorem IsDisjoint.share_eq_one_div_iff (h : s.IsDisjoint) (hsound : s.IsSound) (hp : p ∈ s.parts)
    (hc : p.contains c = true) : s.share c = 1 / s.weight ↔ ¬ p.Spans := by
  have hsize := size_eq (hsound.2 p hp) (h.distinct p hp)
  have hle : p.size ≤ s.weight := List.le_sum_of_mem (List.mem_map_of_mem hp)
  have hcount : (p.count : ℚ) ≠ 0 := Nat.cast_ne_zero.2 (count_pos hc).ne'
  have hweight : (s.weight : ℚ) ≠ 0 :=
    Nat.cast_ne_zero.2 (Nat.lt_of_lt_of_le (size_pos (hsound.2 p hp)) hle).ne'
  rw [h.share_eq hp hc, div_right_comm, div_left_inj' hweight, div_eq_one_iff_eq hcount,
    Nat.cast_inj, hsize]
  split <;> simp_all

theorem contains_of_mem (hp : p ∈ s.parts) (hc : p.contains c = true) : s.contains c = true :=
  List.any_eq_true.2 ⟨p, hp, hc⟩

theorem IsDisjoint.share_eq_share_iff (h : s.IsDisjoint) (hsound : s.IsSound) :
    (∀ c d, s.contains c = true → s.contains d = true → s.share c = s.share d) ↔
      s.parts.length = 1 ∨ ∀ p ∈ s.parts, ¬ p.Spans := by
  constructor
  · intro hequal
    refine or_iff_not_imp_left.2 fun hlength p hp hspans => ?_
    obtain ⟨front, back, hparts⟩ := List.append_of_mem hp
    have hne : front ++ back ≠ [] := by
      intro hnil
      obtain ⟨rfl, rfl⟩ := List.append_eq_nil_iff.1 hnil
      exact hlength (congrArg List.length hparts)
    obtain ⟨q, hq⟩ := List.exists_mem_of_ne_nil _ hne
    have hqs : q ∈ s.parts := by
      rw [hparts]
      exact List.perm_middle.mem_iff.2 (List.mem_cons_of_mem p hq)
    -- the other part shares no character with this range, so it is none over the surrogates
    have hother : ¬ q.Spans := (h.forall_apart hparts q hq).not_spans hspans
    obtain ⟨d, hd⟩ := exists_contains (hsound.2 q hqs)
    have hshare : s.share d = 1 / s.weight := (h.share_eq_one_div_iff hsound hqs hd).2 hother
    have hbehind : p.contains '\uE000' = true := contains_of_spans hspans
    have hsame : s.share '\uE000' = s.share d :=
      hequal _ _ (contains_of_mem hp hbehind) (contains_of_mem hqs hd)
    exact (h.share_eq_one_div_iff hsound hp hbehind).1 (hsame.trans hshare) hspans
  · rintro (hlength | hspans) c d hc hd
    all_goals
      obtain ⟨p, hp, hc⟩ := List.any_eq_true.1 hc
      obtain ⟨q, hq, hd⟩ := List.any_eq_true.1 hd
    · obtain ⟨r, hparts⟩ := List.length_eq_one_iff.1 hlength
      obtain rfl : p = r := List.mem_singleton.1 (hparts ▸ hp)
      obtain rfl : q = p := List.mem_singleton.1 (hparts ▸ hq)
      rw [h.share_eq hp hc, h.share_eq hp hd]
    · have hfirst : s.share c = 1 / s.weight :=
        (h.share_eq_one_div_iff hsound hp hc).2 (hspans p hp)
      have hsecond : s.share d = 1 / s.weight :=
        (h.share_eq_one_div_iff hsound hq hd).2 (hspans q hq)
      exact hfirst.trans hsecond.symm

/-- What the parts of a class that was read weigh, if no two share a character and none lists one
twice. -/
theorem sizes_of_isDisjoint (h : parse source = .ok s) (hs : s.IsDisjoint) :
    (∀ p ∈ s.parts, p.size = p.count + (if p.Spans then 0x800 else 0) ∧ p.size ≤ 0x110000) ∧
    (∃ d, s.sizes? = some d ∧
      d.weights = s.parts.map fun p => (UInt64.ofNatClamp p.size).toFloat) ∧
    ((∀ c d, s.contains c = true → s.contains d = true → s.share c = s.share d) ↔
      s.parts.length = 1 ∨ ∀ p ∈ s.parts, ¬ p.Spans) := by
  have hsound := isSound_parse h
  refine ⟨fun p hp => ?_, ?_, hs.share_eq_share_iff hsound⟩
  · have hdistinct := hs.distinct p hp
    exact ⟨size_eq (hsound.2 p hp) hdistinct, size_le (hsound.2 p hp) hdistinct⟩
  · obtain ⟨d, hsizes, -⟩ := exists_sizes hsound
    refine ⟨d, hsizes, ?_⟩
    unfold sizes? Distribution.ofWeights? at hsizes
    split at hsizes
    · cases hsizes
      rfl
    · cases hsizes

/-- A range over the surrogates that has two characters, beside another character. -/
def acrossSurrogates : CharClass := ⟨"[a\uD7FF-\uE000]", [.range '\uD7FF' '\uE000', .choice ['a']]⟩

theorem parse_acrossSurrogates : parse acrossSurrogates.source = .ok acrossSurrogates := rfl

theorem isDisjoint_acrossSurrogates : acrossSurrogates.IsDisjoint where
  apart := by
    refine List.pairwise_pair.2 (Apart.symm fun c hc => ?_)
    obtain rfl := List.mem_singleton.1 (List.contains_iff_mem.1 hc)
    rfl
  distinct := by decide

theorem sizes_acrossSurrogates :
    parse acrossSurrogates.source = .ok acrossSurrogates ∧
    (∃ d, acrossSurrogates.sizes? = some d ∧ d.weights = [2050, 1]) ∧
    (range '\uD7FF' '\uE000').count = 2 ∧
    ¬ ∀ c d, acrossSurrogates.contains c = true → acrossSurrogates.contains d = true →
      acrossSurrogates.share c = acrossSurrogates.share d := by
  obtain ⟨hsizes, ⟨d, hd, hweights⟩, hshares⟩ :=
    sizes_of_isDisjoint parse_acrossSurrogates isDisjoint_acrossSurrogates
  have hsize := (hsizes _ (List.mem_cons_self ..)).1
  refine ⟨parse_acrossSurrogates, ⟨d, hd, hweights.trans rfl⟩, Nat.add_right_cancel hsize.symm, ?_⟩
  rw [hshares]
  decide

/-- What a part weighs is not always how many characters it has. -/
theorem not_forall_size_eq_count : ¬ ∀ (source : String) (s : CharClass), parse source = .ok s →
    s.IsDisjoint → ∀ p ∈ s.parts, p.size = p.count := by
  intro hall
  have hsame : (range '\uD7FF' '\uE000').size = (range '\uD7FF' '\uE000').count :=
    hall _ _ parse_acrossSurrogates isDisjoint_acrossSurrogates _ (List.mem_cons_self ..)
  have hsize : (range '\uD7FF' '\uE000').size = (range '\uD7FF' '\uE000').count + 0x800 :=
    size_eq (by decide) (by decide)
  omega

end CharClass

end Ebnf
