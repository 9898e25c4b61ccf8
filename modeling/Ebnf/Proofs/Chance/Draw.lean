import Ebnf.Proofs.Chance.Positive
import Ebnf.CharClass

/-! Characters drawn from a class are members of it. The parts of a class that was read are never
empty, so their sizes leave something to choose, the chosen part is one of the class, and redrawing
goes on until the offset is inside the part. -/

namespace Ebnf

def CharPart.IsSound : CharPart → Prop
  | range first last => first ≤ last
  | choice chars => chars ≠ []

instance : DecidablePred CharPart.IsSound
  | .range first last => inferInstanceAs (Decidable (first ≤ last))
  | .choice chars => inferInstanceAs (Decidable (chars ≠ []))

def CharClass.IsSound (s : CharClass) : Prop := s.parts ≠ [] ∧ ∀ p ∈ s.parts, p.IsSound

namespace ClassItem

def IsOrdered : ClassItem → Prop
  | range first last => first ≤ last
  | _ => True

theorem isOrdered_ofAtoms {closed : Bool} {atoms : List ClassAtom} {items : List ClassItem}
    (h : ofAtoms closed atoms = .ok items) : ∀ i ∈ items, i.IsOrdered := by
  have cons : ∀ {x : Except ClassFault (List ClassItem)} {i : ClassItem} {items : List ClassItem},
      x.map (i :: ·) = .ok items → i.IsOrdered →
      (∀ items, x = .ok items → ∀ j ∈ items, j.IsOrdered) → ∀ j ∈ items, j.IsOrdered := by
    intro x i items hx hi ih
    cases x with
    | error => cases hx
    | ok rest =>
      cases hx
      exact List.forall_mem_cons.2 ⟨hi, ih rest rfl⟩
  fun_induction ofAtoms closed atoms generalizing items with
  | case1 =>
    cases h
    exact nofun
  | case2 | case3 | case5 | case6 => cases h
  | case4 _ _ _ _ ih => exact cons h trivial fun _ => ih
  | case7 _ _ _ _ _ hlt ih => exact cons h (Char.not_lt.1 hlt) fun _ => ih
  | case8 _ _ _ _ _ _ ih => exact cons h trivial fun _ => ih

theorem isSound_parts {i : ClassItem} (h : i.IsOrdered) : ∀ p ∈ i.parts, p.IsSound := by
  cases i with
  | single c => exact nofun
  | range first last =>
    intro p hp
    obtain rfl := List.mem_singleton.1 hp
    exact h
  | shorthand s => cases s <;> decide

/-- Every item is part of the union or of the set of single characters. -/
theorem parts_or_loose (i : ClassItem) : i.parts ≠ [] ∨ i.loose?.isSome := by
  cases i with
  | single => exact .inr rfl
  | range => exact .inl (List.cons_ne_nil _ _)
  | shorthand s => cases s <;> exact .inl (List.cons_ne_nil _ _)

end ClassItem

namespace CharClass

theorem isSound_partsOf {source : String} {items : List ClassItem} (hne : items ≠ [])
    (h : ∀ i ∈ items, i.IsOrdered) : (CharClass.mk source (partsOf items)).IsSound := by
  constructor
  · intro hnil
    obtain ⟨i, hi⟩ := List.exists_mem_of_ne_nil items hne
    obtain ⟨hparts, hloose⟩ := List.append_eq_nil_iff.1 hnil
    rcases i.parts_or_loose with hp | hl
    · exact hp (List.flatMap_eq_nil_iff.1 hparts i hi)
    · obtain ⟨c, hc⟩ := Option.isSome_iff_exists.1 hl
      have hmem : c ∈ items.filterMap ClassItem.loose? := List.mem_filterMap.2 ⟨i, hi, hc⟩
      rw [if_neg] at hloose
      · cases hloose
      · exact fun hempty => List.ne_nil_of_mem hmem (List.isEmpty_iff.1 hempty)
  · intro p hp
    rcases List.mem_append.1 hp with hp | hp
    · obtain ⟨i, hi, hp⟩ := List.mem_flatMap.1 hp
      exact ClassItem.isSound_parts (h i hi) p hp
    · split at hp
      · cases hp
      · next hloose =>
        obtain rfl := List.mem_singleton.1 hp
        exact fun hnil => hloose (List.isEmpty_iff.2 hnil)

theorem isSound_parse {source : String} {set : CharClass} (h : parse source = .ok set) :
    set.IsSound := by
  unfold parse at h
  split at h
  · cases h
  · next rest _ _ =>
    cases hatoms : ClassItem.ofAtoms (ClassBody.read rest).closed (ClassBody.read rest).atoms with
    | error fault => simp [hatoms, bind, Except.bind] at h
    | ok items =>
      simp only [hatoms, bind, Except.bind] at h
      split at h
      · cases h
      · next hne =>
        cases h
        refine isSound_partsOf (fun hnil => hne (List.isEmpty_iff.2 hnil)) ?_
        exact ClassItem.isOrdered_ofAtoms hatoms
  · cases h

end CharClass

namespace Words

theorem drawUntil_eq_some {α : Type} {words : Words} {accept : UInt64 → Option α} {a : α}
    {patience used used' : Nat} (h : words.drawUntil accept patience used = some (a, used')) :
    ∃ word, accept word = some a := by
  induction patience generalizing used with
  | zero => cases h
  | succ k ih =>
    rw [drawUntil] at h
    split at h
    · next hword =>
      cases h
      exact ⟨_, hword⟩
    · exact ih h

theorem exists_drawUntil {α : Type} {words : Words} {accept : UInt64 → Option α} {a : α}
    {patience used : Nat} (hpos : 0 < patience) (h : accept (words used) = some a) :
    words.drawUntil accept patience used = some (a, used + 1) := by
  cases patience with
  | zero => cases hpos
  | succ k => rw [drawUntil, h]

end Words

namespace Uniform

theorem accept_zero (width range : Nat) : accept width range 0 = some 0 := by
  simp [accept]

theorem lt_of_accept {width range word i : Nat} (h : accept width range word = some i)
    (hword : word < 2 ^ width) (hrange : 0 < range) : i < range := by
  simp only [accept] at h
  split at h
  · cases h
    exact Nat.div_lt_of_lt_mul (Nat.mul_lt_mul_of_pos_right hword hrange)
  · cases h

theorem lt_of_accept32 {range i : Nat} {word : UInt64} (h : accept32 range word = some i)
    (hrange : 0 < range) : i < range :=
  lt_of_accept h (Nat.mod_lt _ (by decide)) hrange

theorem lt_of_accept64 {range i : Nat} {word : UInt64} (h : accept64 range word = some i)
    (hrange : 0 < range) : i < range :=
  lt_of_accept h word.toNat_lt hrange

end Uniform

namespace Distribution

theorem length_cumulative (d : Distribution) : d.cumulative.length = d.size - 1 := by
  have sums : ∀ (ws : List Float) (total : Float),
      (cumulative.sums total ws).length = ws.length := by
    intro ws
    induction ws with
    | nil => intro total; rfl
    | cons w ws ih => intro total; exact congrArg (· + 1) (ih (total + w))
  unfold cumulative size
  split
  · next h => simp [h]
  · next h => simp [h, sums]

theorem lt_of_sample {d : Distribution} {words : Words} {used used' i : Nat}
    (h : d.sample words used = (some i, used')) : i < d.size := by
  unfold sample at h
  split at h
  · next hviable =>
    cases h
    have hne : d.weights ≠ [] := fun hnil => by simp [isViable, hnil] at hviable
    have hpos : 0 < d.size := List.length_pos_iff.2 hne
    have hle : d.pick (words used) ≤ d.size - 1 :=
      Nat.le_trans (List.takeWhile_sublist _).length_le (Nat.le_of_eq d.length_cumulative)
    exact Nat.lt_of_le_of_lt hle (Nat.sub_one_lt_of_lt hpos)
  · cases h

end Distribution

namespace CharPart

theorem size_pos {p : CharPart} (h : p.IsSound) : 0 < p.size := by
  cases p with
  | range first last => exact Nat.succ_pos _
  | choice chars => exact List.length_pos_iff.2 h

theorem contains_of_charAt? {first last c : Char} {i : Nat} (hle : first ≤ last)
    (hi : i < last.toNat - first.toNat + 1) (h : charAt? (first.toNat + i) = some c) :
    (range first last).contains c = true := by
  unfold charAt? at h
  split at h
  · next hvalid =>
    obtain rfl := Option.some.inj h
    have hcode : (Char.ofNat (first.toNat + i)).toNat = first.toNat + i := by
      rw [Char.ofNat, dif_pos hvalid]
      rfl
    have hle : first.toNat ≤ last.toNat := hle
    have hfirst : first ≤ Char.ofNat (first.toNat + i) := by
      change first.toNat ≤ (Char.ofNat (first.toNat + i)).toNat
      omega
    have hlast : Char.ofNat (first.toNat + i) ≤ last := by
      change (Char.ofNat (first.toNat + i)).toNat ≤ last.toNat
      omega
    simp [contains, hfirst, hlast]
  · cases h

theorem contains_of_draw {words : Words} {p : CharPart} (hp : p.IsSound) {used used' : Nat}
    {c : Option Char} (h : p.draw words used = some (c, used')) :
    ∃ ch, c = some ch ∧ p.contains ch = true := by
  cases p with
  | range first last =>
    simp only [draw] at h
    obtain ⟨⟨ch, n⟩, hdraw, heq⟩ := Option.map_eq_some_iff.1 h
    cases heq
    obtain ⟨word, hword⟩ := Words.drawUntil_eq_some hdraw
    obtain ⟨i, hi, hch⟩ := Option.bind_eq_some_iff.1 hword
    exact ⟨ch, rfl, contains_of_charAt? hp (Uniform.lt_of_accept32 hi (Nat.succ_pos _)) hch⟩
  | choice chars =>
    cases chars with
    | nil => exact absurd rfl hp
    | cons first rest =>
      rw [draw] at h
      obtain ⟨⟨i, n⟩, hdraw, heq⟩ := Option.map_eq_some_iff.1 h
      cases heq
      obtain ⟨word, hword⟩ := Words.drawUntil_eq_some hdraw
      have hlt : i < (first :: rest).length := Uniform.lt_of_accept64 hword (Nat.succ_pos _)
      refine ⟨(first :: rest)[i], List.getElem?_eq_getElem hlt, ?_⟩
      exact List.contains_iff_mem.2 (List.getElem_mem hlt)

theorem exists_draw_zero (p : CharPart) (used : Nat) :
    ∃ drawn, p.draw (fun _ => 0) used = some drawn := by
  have hpatience : 0 < Words.patience := by decide
  cases p with
  | range first last =>
    have hvalid : first.toNat.isValidChar := first.valid
    have hfirst : charAt? first.toNat = some first := by
      rw [charAt?, if_pos hvalid, Char.ofNat_toNat]
    have haccept : (Uniform.accept32 (last.toNat - first.toNat + 1) 0).bind
        (fun i => charAt? (first.toNat + i)) = some first := by
      have hzero : Uniform.accept32 (last.toNat - first.toNat + 1) 0 = some 0 :=
        Uniform.accept_zero 32 _
      rw [hzero]
      exact hfirst
    have hdrawn : Words.drawUntil (fun _ => 0) (fun word =>
        (Uniform.accept32 (last.toNat - first.toNat + 1) word).bind
          fun i => charAt? (first.toNat + i)) Words.patience used = some (first, used + 1) :=
      Words.exists_drawUntil hpatience haccept
    exact ⟨_, congrArg (Option.map _) hdrawn⟩
  | choice chars =>
    cases chars with
    | nil => exact ⟨_, rfl⟩
    | cons c cs =>
      have hdrawn : Words.drawUntil (fun _ => 0) (Uniform.accept64 (cs.length + 1)) Words.patience
          used = some (0, used + 1) := Words.exists_drawUntil hpatience (Uniform.accept_zero 64 _)
      exact ⟨_, congrArg (Option.map _) hdrawn⟩

end CharPart

namespace CharClass

theorem exists_draw_zero (set : CharClass) (used : Nat) :
    ∃ drawn, set.draw (fun _ => 0) used = some drawn := by
  unfold draw
  split
  · exact ⟨_, rfl⟩
  · split
    · exact ⟨_, rfl⟩
    · split
      · exact ⟨_, rfl⟩
      · exact CharPart.exists_draw_zero _ _

/-- The parts of a class that was read weigh enough to choose one. -/
theorem exists_sizes {set : CharClass} (h : set.IsSound) : ∃ d, set.sizes? = some d ∧
    d.size = set.parts.length ∧ d.isViable = true := by
  have hpos : ∀ w ∈ set.parts.map fun p => (UInt64.ofNatClamp p.size).toFloat, IsPositive w := by
    intro w hw
    obtain ⟨p, hp, rfl⟩ := List.mem_map.1 hw
    refine isPositive_toFloat fun hzero => ?_
    have hsize := CharPart.size_pos (h.2 p hp)
    -- a size of more than 64 bits is clamped, so it does not come round to zero
    have hzero := congrArg UInt64.toNat hzero
    unfold UInt64.ofNatClamp at hzero
    split at hzero
    · next hlt =>
      rw [UInt64.toNat_ofNatLT] at hzero
      exact Nat.pos_iff_ne_zero.1 hsize hzero
    · cases hzero
  refine ⟨⟨_, fun w hw => (hpos w hw).nonneg⟩, dif_pos _, List.length_map .., ?_⟩
  refine Distribution.isViable_of_positive ?_ hpos
  exact fun hnil => h.1 (List.map_eq_nil_iff.1 hnil)

/-- A character drawn from a class that was read is there and belongs to the class. -/
theorem contains_of_draw {words : Words} {set : CharClass} (hset : set.IsSound)
    {used used' : Nat} {c : Option Char} (h : set.draw words used = some (c, used')) :
    ∃ ch, c = some ch ∧ set.contains ch = true := by
  obtain ⟨d, hsizes, hlen, hviable⟩ := exists_sizes hset
  have hsample : d.sample words used = (some (d.pick (words used)), used + 1) := if_pos hviable
  have hlt := Distribution.lt_of_sample hsample
  rw [hlen] at hlt
  simp only [draw, hsizes, hsample, List.getElem?_eq_getElem hlt] at h
  have hmem := List.getElem_mem hlt
  obtain ⟨ch, hc, hin⟩ := CharPart.contains_of_draw (hset.2 _ hmem) h
  exact ⟨ch, hc, List.any_eq_true.2 ⟨_, hmem, hin⟩⟩

end CharClass

end Ebnf
