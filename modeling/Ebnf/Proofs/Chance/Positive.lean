import Ebnf.Chance.Distribution
import Mathlib

/-! Floats above zero. Rounding keeps a number above zero as long as its exponent is one that is
representable, so counts and sums of such floats stay above zero, and weights that are counts leave
something to choose. -/

namespace Ebnf

open Float.Model UnpackedFloat

/-- The exponent of the smallest float above zero. -/
def leastExponent : Int := -1074

/-- Positive and, in its exponent, representable. -/
def UnpackedPositive : UnpackedFloat → Prop
  | .finite .positive _ e _ => leastExponent ≤ e
  | .infinity .positive => True
  | _ => False

/-- The same with a mantissa that needs no further rounding. -/
def Rounded : UnpackedFloat → Prop
  | .finite .positive m e _ => leastExponent ≤ e ∧ m < 2 ^ 53
  | .infinity .positive => True
  | _ => False

theorem mantissa_shiftRight (em : ExtendedMantissa) (n : Nat) :
    (em >>> n).mantissa = em.mantissa / 2 ^ n := by
  change (n.repeat ExtendedMantissa.shiftRightOne em).mantissa = _
  induction n with
  | zero => simp [Nat.repeat]
  | succ n ih =>
    rw [Nat.repeat, ExtendedMantissa.shiftRightOne, ih, Nat.div_div_eq_div_mul, Nat.pow_succ]

theorem mantissa_ofMantissaAndAccuracy (m : Nat) (a : Accuracy) :
    (ExtendedMantissa.ofMantissaAndAccuracy m a).mantissa = m := by
  rcases a with - | (- | - | -) <;> rfl

theorem le_roundedMantissa (em : ExtendedMantissa) : em.mantissa ≤ em.roundedMantissa := by
  obtain ⟨m, - | -, - | -⟩ := em <;>
    simp [ExtendedMantissa.roundedMantissa, ExtendedMantissa.accuracy,
      Accuracy.roundToNearestEven]

theorem targetExponent_eq (t : Int) :
    Format.binary64.targetExponent t = max (t - 53) leastExponent := rfl

theorem div_two_pow_log2 {m : Nat} (hm : 0 < m) :
    0 < m / 2 ^ (m.log2 - 52) ∧ m / 2 ^ (m.log2 - 52) < 2 ^ 53 := by
  have hle : 2 ^ m.log2 ≤ m := Nat.log2_self_le (Nat.pos_iff_ne_zero.1 hm)
  have hlt : m < 2 ^ (m.log2 + 1) := Nat.lt_log2_self
  constructor
  · refine Nat.div_pos (Nat.le_trans ?_ hle) (Nat.two_pow_pos _)
    exact Nat.pow_le_pow_right (by decide) (Nat.sub_le _ _)
  · rw [Nat.div_lt_iff_lt_mul (Nat.two_pow_pos _), ← Nat.pow_add]
    refine Nat.lt_of_lt_of_le hlt (Nat.pow_le_pow_right (by decide) ?_)
    omega

theorem shiftToTargetExponent_spec {m : Nat} {e : Int} (hm : 0 < m) (he : leastExponent ≤ e)
    (a : Accuracy) :
    0 < (shiftToTargetExponent .binary64 m e a).1.mantissa ∧
      (shiftToTargetExponent .binary64 m e a).1.mantissa < 2 ^ 53 ∧
        leastExponent ≤ (shiftToTargetExponent .binary64 m e a).2 := by
  have hshift : (max (totalExponent m e - 53) leastExponent - e).toNat = m.log2 - 52 := by
    unfold totalExponent
    omega
  simp only [shiftToTargetExponent, shiftToExponent, targetExponent_eq, hshift,
    mantissa_shiftRight, mantissa_ofMantissaAndAccuracy]
  obtain ⟨hpos, hlt⟩ := div_two_pow_log2 hm
  exact ⟨hpos, hlt, by omega⟩

theorem rounded_roundWithAccuracy {m : Nat} {e : Int} (hm : 0 < m) (he : leastExponent ≤ e)
    (a : Accuracy) : Rounded (roundWithAccuracy .binary64 .positive m e a) := by
  obtain ⟨hpos, -, hleast⟩ := shiftToTargetExponent_spec hm he a
  -- rounding up may bring one more digit, which the second shift drops
  have hrounded := Nat.lt_of_lt_of_le hpos (le_roundedMantissa _)
  obtain ⟨hpos', hlt', hleast'⟩ := shiftToTargetExponent_spec hrounded hleast .exact
  have hfinite : roundWithAccuracy .binary64 .positive m e a = .finite .positive _ _ hpos' :=
    dif_neg (Nat.pos_iff_ne_zero.1 hpos')
  rw [hfinite]
  exact ⟨hleast', hlt'⟩

theorem rounded_normalize {m : Int} {e : Int} (hm : 0 < m) (he : leastExponent ≤ e)
    (zeroSign : Sign) : Rounded (UnpackedFloat.normalize .binary64 m e zeroSign) := by
  have hgt : compare m 0 = .gt := Int.compare_eq_gt.2 hm
  simp only [UnpackedFloat.normalize, hgt, UnpackedFloat.round, decreaseExponent]
  refine rounded_roundWithAccuracy ?_ ?_ _
  · rw [Nat.shiftLeft_eq]
    exact Nat.mul_pos (by omega) (Nat.two_pow_pos _)
  · rw [targetExponent_eq]
    omega

/-- The biased exponents at the ends stand for infinity and for the least exponent. -/
theorem unpackedPositive_packComponents {exponent : BitVec 11} {mantissa : BitVec 52}
    (hinfinite : exponent = -1#_ → mantissa = 0#_) (hsubnormal : exponent = 0#_ → mantissa ≠ 0#_) :
    UnpackedPositive (UnpackedFloat.unpack .binary64
      (packComponents .binary64 .positive exponent mantissa)) := by
  unfold UnpackedFloat.unpack
  simp only [unpackMantissa_packComponents, unpackExponent_packComponents,
    unpackSign_packComponents]
  split
  · next hexp =>
    rw [if_pos (hinfinite hexp)]
    trivial
  · split
    · next hexp =>
      rw [dif_neg (hsubnormal hexp), hexp]
      exact Int.le_refl leastExponent
    · next hexp =>
      have hpos : exponent.toNat ≠ 0 := fun h => hexp (BitVec.eq_of_toNat_eq h)
      change -1074 ≤ (exponent.toNat : Int) - (1023 + 52)
      omega

/-- The exponent is biased, and the first digit of a normal mantissa is left out. -/
theorem pack_finite {m : Nat} {e : Int} (hm : 0 < m) :
    UnpackedFloat.pack .binary64 (.finite .positive m e hm) =
      if 2 ^ 11 ≤ (e + 1023 + (52 : Nat)).toNat + 1 then
        packComponents .binary64 .positive (-1#11) 0#52
      else if m.log2 + 1 = 53 then
        packComponents .binary64 .positive (BitVec.ofNat 11 (e + 1023 + (52 : Nat)).toNat)
          (BitVec.ofNat 52 m)
      else packComponents .binary64 .positive 0#11 (BitVec.ofNat 52 m) := rfl

theorem unpackedPositive_infinite : UnpackedPositive
    (UnpackedFloat.unpack .binary64 (packComponents .binary64 .positive (-1#_) 0#_)) :=
  unpackedPositive_packComponents (fun _ => rfl) fun hzero => absurd hzero (by decide)

theorem unpackedPositive_pack {u : UnpackedFloat} (h : Rounded u) :
    UnpackedPositive (UnpackedFloat.unpack .binary64 (UnpackedFloat.pack .binary64 u)) := by
  cases u with
  | notANumber | zero => exact h.elim
  | infinity s =>
    cases s with
    | negative => exact h.elim
    | positive => exact unpackedPositive_infinite
  | finite s m e hm =>
    cases s with
    | negative => exact h.elim
    | positive =>
      obtain ⟨hleast, hlt⟩ := h
      rw [pack_finite]
      unfold leastExponent at hleast
      split
      · exact unpackedPositive_infinite
      · next hexp =>
        have hbiased : (BitVec.ofNat 11 (e + 1023 + (52 : Nat)).toNat).toNat =
            (e + 1023 + (52 : Nat)).toNat := by
          rw [BitVec.toNat_ofNat]
          exact Nat.mod_eq_of_lt (by omega)
        split
        · refine unpackedPositive_packComponents (fun heq => ?_) (fun heq => ?_)
          · have hones : (e + 1023 + (52 : Nat)).toNat = 2047 := by
              rw [← hbiased, heq]
              rfl
            omega
          · have hzero : (e + 1023 + (52 : Nat)).toNat = 0 := by
              rw [← hbiased, heq]
              rfl
            omega
        · next hlog =>
          refine unpackedPositive_packComponents (fun heq => absurd heq (by decide)) ?_
          intro _ hzero
          have hsmall : m < 2 ^ 52 := by
            have hne := Nat.pos_iff_ne_zero.1 hm
            have hbound := (Nat.log2_lt hne).2 hlt
            exact (Nat.log2_lt hne).1 (by omega)
          have hmod := congrArg BitVec.toNat hzero
          rw [BitVec.toNat_ofNat, Nat.mod_eq_of_lt hsmall] at hmod
          exact Nat.pos_iff_ne_zero.1 hm hmod

def IsPositive (x : Float) : Prop := UnpackedPositive x.toModel.unpack

def IsZero (x : Float) : Prop := ∃ s, x.toModel.unpack = .zero s

theorem isPositive_of_rounded {u : UnpackedFloat} (h : Rounded u) :
    IsPositive (.ofModel (.pack u)) := unpackedPositive_pack h

theorem isZero_ofModel (s : Sign) : IsZero (.ofModel (.pack (.zero s))) := by
  cases s <;> exact ⟨_, rfl⟩

theorem isPositive_toFloat {n : UInt64} (h : n ≠ 0) : IsPositive n.toFloat := by
  refine isPositive_of_rounded (rounded_normalize ?_ (by decide) _)
  have hpos : 0 < n.toNat := Nat.pos_of_ne_zero fun hzero => h (UInt64.toNat_inj.1 hzero)
  exact Int.natCast_pos.2 hpos

theorem add_finite {m m' : Nat} {e e' : Int} (hm : 0 < m) (hm' : 0 < m') :
    UnpackedFloat.add .binary64 (.finite .positive m e hm) (.finite .positive m' e' hm') =
      UnpackedFloat.normalize .binary64
        ((m <<< (e - min e e').toNat : Nat) + (m' <<< (e' - min e e').toNat : Nat))
        (min e e') .positive := rfl

theorem IsPositive.unpack_eq {x : Float} (h : IsPositive x) :
    x.toModel.unpack = .infinity .positive ∨
      ∃ m e hm, x.toModel.unpack = .finite .positive m e hm ∧ leastExponent ≤ e := by
  unfold IsPositive at h
  cases hu : x.toModel.unpack with
  | notANumber | zero =>
    rw [hu] at h
    exact h.elim
  | infinity s =>
    cases s with
    | negative =>
      rw [hu] at h
      exact h.elim
    | positive => exact .inl rfl
  | finite s m e hm =>
    rw [hu] at h
    cases s with
    | negative => exact h.elim
    | positive => exact .inr ⟨m, e, hm, rfl, h⟩

theorem IsPositive.add {x y : Float} (hx : IsPositive x) (hy : IsPositive y) :
    IsPositive (x + y) := by
  refine isPositive_of_rounded ?_
  rcases hx.unpack_eq with hu | ⟨m, e, hm, hu, he⟩
  · rcases hy.unpack_eq with hv | ⟨m', e', hm', hv, -⟩
    · rw [hu, hv]
      trivial
    · rw [hu, hv]
      trivial
  · rcases hy.unpack_eq with hv | ⟨m', e', hm', hv, he'⟩
    · rw [hu, hv]
      trivial
    · rw [hu, hv, add_finite]
      refine rounded_normalize ?_ (by omega) _
      have hpos : ∀ {n k : Nat}, 0 < n → 0 < n <<< k := fun hn => by
        rw [Nat.shiftLeft_eq]
        exact Nat.mul_pos hn (Nat.two_pow_pos _)
      exact Int.add_pos (Int.natCast_pos.2 (hpos hm)) (Int.natCast_pos.2 (hpos hm'))

theorem unpack_zero : (0 : Float).toModel.unpack = .zero .positive := by rfl

theorem IsPositive.nonneg {x : Float} (h : IsPositive x) : (0 : Float) ≤ x := by
  apply decide_eq_true (p := (0 : Float).toModel ≤ x.toModel)
  change ((0 : Float).toModel.unpack.compare x.toModel.unpack).any (·.isLE) = true
  rcases h.unpack_eq with hu | ⟨m, e, hm, hu, -⟩ <;>
    · rw [unpack_zero, hu]
      rfl

theorem IsPositive.ne_zero {x : Float} (h : IsPositive x) : (x != 0) = true := by
  change (!(x.toModel.unpack.compare (0 : Float).toModel.unpack == some .eq)) = true
  rcases h.unpack_eq with hu | ⟨m, e, hm, hu, -⟩ <;>
    · rw [unpack_zero, hu]
      rfl

theorem rounded_unpack {b : BitVec Format.binary64.numBits}
    (h : UnpackedPositive (UnpackedFloat.unpack .binary64 b)) :
    Rounded (UnpackedFloat.unpack .binary64 b) := by
  have hmantissa : (unpackMantissa b).toNat < 2 ^ 52 := (unpackMantissa b).isLt
  have hnormal : (1#1 ++ unpackMantissa b).toNat < 2 ^ 53 := (1#1 ++ unpackMantissa b).isLt
  revert h
  unfold UnpackedFloat.unpack
  dsimp only
  split
  · split
    · cases Sign.ofBitVec (unpackSign b) <;> exact id
    · exact id
  · split
    · split
      · exact False.elim
      · cases Sign.ofBitVec (unpackSign b) with
        | negative => exact False.elim
        | positive => exact fun h => ⟨h, Nat.lt_trans hmantissa (by decide)⟩
    · cases Sign.ofBitVec (unpackSign b) with
      | negative => exact False.elim
      | positive => exact fun h => ⟨h, hnormal⟩

theorem IsPositive.add_isZero {x y : Float} (hx : IsPositive x) (hy : IsZero y) :
    IsPositive (x + y) := by
  have hrounded := rounded_unpack hx
  obtain ⟨s, hv⟩ := hy
  refine isPositive_of_rounded ?_
  rcases hx.unpack_eq with hu | ⟨m, e, hm, hu, -⟩
  · rw [hu, hv]
    trivial
  · change Rounded x.toModel.unpack at hrounded
    rw [hu] at hrounded
    rw [hu, hv]
    exact hrounded

theorem IsZero.add_isPositive {x y : Float} (hx : IsZero x) (hy : IsPositive y) :
    IsPositive (x + y) := by
  have hrounded := rounded_unpack hy
  obtain ⟨s, hu⟩ := hx
  refine isPositive_of_rounded ?_
  rcases hy.unpack_eq with hv | ⟨m, e, hm, hv, -⟩
  · rw [hu, hv]
    trivial
  · change Rounded y.toModel.unpack at hrounded
    rw [hv] at hrounded
    rw [hu, hv]
    exact hrounded

theorem IsZero.add {x y : Float} (hx : IsZero x) (hy : IsZero y) : IsZero (x + y) := by
  obtain ⟨s, hu⟩ := hx
  obtain ⟨s', hv⟩ := hy
  have hadd : UnpackedFloat.add .binary64 (.zero s) (.zero s') =
      .zero (if s == s' then s else .positive) :=
    (apply_ite UnpackedFloat.zero ((s == s') = true) s .positive).symm
  change IsZero (.ofModel (.pack (UnpackedFloat.add .binary64 x.toModel.unpack y.toModel.unpack)))
  rw [hu, hv, hadd]
  exact isZero_ofModel _

theorem IsPositive.pos {x : Float} (h : IsPositive x) : (0 : Float) < x := by
  apply decide_eq_true (p := (0 : Float).toModel < x.toModel)
  change ((0 : Float).toModel.unpack.compare x.toModel.unpack == some .lt) = true
  rcases h.unpack_eq with hu | ⟨m, e, hm, hu, -⟩ <;>
    · rw [unpack_zero, hu]
      rfl

theorem leastExponent_le_of_unpack {b : BitVec Format.binary64.numBits} {s : Sign} {m : Nat}
    {e : Int} {hm : 0 < m} (h : UnpackedFloat.unpack .binary64 b = .finite s m e hm) :
    leastExponent ≤ e := by
  unfold UnpackedFloat.unpack at h
  dsimp only at h
  split at h
  · split at h <;> cases h
  · split at h
    · next hexp =>
      split at h
      · cases h
      · obtain ⟨-, -, rfl⟩ := UnpackedFloat.finite.inj h
        rw [hexp]
        exact Int.le_refl leastExponent
    · next hexp =>
      obtain ⟨-, -, rfl⟩ := UnpackedFloat.finite.inj h
      have hpos : (unpackExponent b).toNat ≠ 0 := fun h => hexp (BitVec.eq_of_toNat_eq h)
      change -1074 ≤ ((unpackExponent b).toNat : Int) - (1023 + 52)
      omega

theorem isZero_or_isPositive {x : Float} (h : (0 : Float) ≤ x) : IsZero x ∨ IsPositive x := by
  have hle : ((0 : Float).toModel.unpack.compare x.toModel.unpack).any (·.isLE) = true :=
    of_decide_eq_true (p := (0 : Float).toModel ≤ x.toModel) h
  unfold IsPositive
  rw [unpack_zero] at hle
  cases hu : x.toModel.unpack with
  | notANumber =>
    rw [hu] at hle
    cases hle
  | zero s => exact .inl ⟨s, hu⟩
  | infinity s =>
    rw [hu] at hle
    cases s with
    | negative => cases hle
    | positive => exact .inr trivial
  | finite s m e hm =>
    rw [hu] at hle
    cases s with
    | negative => cases hle
    | positive => exact .inr (leastExponent_le_of_unpack hu)

theorem isPositive_of_pos {x : Float} (h : (0 : Float) < x) : IsPositive x := by
  have hlt : ((0 : Float).toModel.unpack.compare x.toModel.unpack == some .lt) = true :=
    of_decide_eq_true (p := (0 : Float).toModel < x.toModel) h
  rw [beq_iff_eq] at hlt
  have hle : (0 : Float) ≤ x := by
    apply decide_eq_true (p := (0 : Float).toModel ≤ x.toModel)
    change ((0 : Float).toModel.unpack.compare x.toModel.unpack).any (·.isLE) = true
    rw [hlt]
    rfl
  refine (isZero_or_isPositive hle).resolve_left fun ⟨s, hu⟩ => ?_
  rw [unpack_zero, hu] at hlt
  cases hlt

theorem isPositive_one : IsPositive 1 := by
  have h : IsPositive (1 : UInt64).toFloat := isPositive_toFloat (by decide)
  exact h

theorem IsZero.nonneg {x : Float} (h : IsZero x) : (0 : Float) ≤ x := by
  obtain ⟨s, hu⟩ := h
  apply decide_eq_true (p := (0 : Float).toModel ≤ x.toModel)
  change ((0 : Float).toModel.unpack.compare x.toModel.unpack).any (·.isLE) = true
  rw [unpack_zero, hu]
  rfl

theorem IsPositive.add_nonneg {x y : Float} (hx : IsPositive x) (hy : 0 ≤ y) :
    IsPositive (x + y) := by
  rcases isZero_or_isPositive hy with hzero | hpos
  · exact hx.add_isZero hzero
  · exact hx.add hpos

theorem isPositive_nonneg_add {x y : Float} (hx : 0 ≤ x) (hy : IsPositive y) :
    IsPositive (x + y) := by
  rcases isZero_or_isPositive hx with hzero | hpos
  · exact hzero.add_isPositive hy
  · exact hpos.add hy

theorem nonneg_add {x y : Float} (hx : 0 ≤ x) (hy : 0 ≤ y) : 0 ≤ x + y := by
  rcases isZero_or_isPositive hx with hzero | hpos
  · rcases isZero_or_isPositive hy with hzero' | hpos'
    · exact (hzero.add hzero').nonneg
    · exact (hzero.add_isPositive hpos').nonneg
  · exact (hpos.add_nonneg hy).nonneg

theorem isPositive_foldl {w : Float} {ws : List Float} (hw : 0 ≤ w) (hws : ∀ x ∈ ws, 0 ≤ x)
    (h : IsPositive w ∨ ∃ x ∈ ws, IsPositive x) : IsPositive (ws.foldl (· + ·) w) := by
  induction ws generalizing w with
  | nil => exact h.resolve_right (by simp)
  | cons x ws ih =>
    obtain ⟨hx, hws⟩ := List.forall_mem_cons.1 hws
    refine ih (nonneg_add hw hx) hws ?_
    rcases h with hpos | ⟨y, hy, hpos⟩
    · exact .inl (hpos.add_nonneg hx)
    · rcases List.mem_cons.1 hy with rfl | hy
      · exact .inl (isPositive_nonneg_add hw hpos)
      · exact .inr ⟨y, hy, hpos⟩

namespace Distribution

variable {d : Distribution}

theorem isPositive_total (h : ∃ w ∈ d.weights, IsPositive w) : IsPositive d.total := by
  obtain ⟨w, hw, hpos⟩ := h
  have hnonneg := d.nonneg
  unfold total
  cases hd : d.weights with
  | nil =>
    rw [hd] at hw
    cases hw
  | cons first rest =>
    rw [hd] at hw hnonneg
    obtain ⟨hfirst, hrest⟩ := List.forall_mem_cons.1 hnonneg
    refine isPositive_foldl hfirst hrest ?_
    rcases List.mem_cons.1 hw with rfl | hw
    · exact .inl hpos
    · exact .inr ⟨w, hw, hpos⟩

theorem isViable_of_total_pos (h : 0 < d.total) : d.isViable = true := by
  have hne : d.weights.isEmpty = false := by
    rw [Bool.eq_false_iff]
    intro hempty
    rw [total, List.isEmpty_iff.1 hempty] at h
    exact absurd h (by decide)
  rw [isViable, hne, (isPositive_of_pos h).ne_zero]
  rfl

theorem isViable_of_positive (hne : d.weights ≠ []) (hpos : ∀ w ∈ d.weights, IsPositive w) :
    d.isViable = true := by
  obtain ⟨w, hw⟩ := List.exists_mem_of_ne_nil _ hne
  exact isViable_of_total_pos (isPositive_total ⟨w, hw, hpos w hw⟩).pos

theorem isPositive_total_indicator {marks : List Bool} (h : true ∈ marks) :
    IsPositive (indicator marks).total := by
  have hone : (1 : Float) ∈ (indicator marks).weights := List.mem_map.2 ⟨true, h, rfl⟩
  exact isPositive_total ⟨1, hone, isPositive_one⟩

end Distribution

end Ebnf
