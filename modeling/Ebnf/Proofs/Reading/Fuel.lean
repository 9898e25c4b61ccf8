import Ebnf.Proofs.Reading.Answers
import Mathlib.Data.Finset.Card
import Mathlib.Data.Finset.Prod
import Mathlib.Order.Monotone.Basic

/-! How much fuel is enough. More fuel answers at more pairs of a node and an offset, and once it
exceeds the text and answers at no new pair, it never answers at a new one again. So no answer
takes more fuel than there are such pairs, beyond the length of the text. -/

namespace Ebnf

namespace Graph

variable (g : Graph) (text : List Char)

def places : Finset (Nat × Nat) := Finset.range g.size ×ˢ Finset.range (text.length + 1)

/-- The places at which one occurrence is answered with some fuel. -/
def answered (fuel : Nat) : Finset (Nat × Nat) :=
  (g.places text).filter fun p => (g.readOnce text fuel p.1 p.2).isSome

variable {g : Graph} {text : List Char}

theorem card_places : (g.places text).card = g.size * (text.length + 1) := by
  rw [places, Finset.card_product, Finset.card_range, Finset.card_range]

theorem mem_answered {fuel id k : Nat} : (id, k) ∈ g.answered text fuel ↔
    (id < g.size ∧ k ≤ text.length) ∧ (g.readOnce text fuel id k).isSome := by
  rw [answered, Finset.mem_filter, places, Finset.mem_product, Finset.mem_range, Finset.mem_range,
    Nat.lt_succ_iff]

theorem answered_mono : Monotone (g.answered text) := by
  rintro fuel fuel' hle ⟨id, k⟩ hmem
  obtain ⟨⟨hid, hk⟩, hsome⟩ := mem_answered.1 hmem
  obtain ⟨v, hv⟩ := Option.isSome_iff_exists.1 hsome
  exact mem_answered.2 ⟨⟨hid, hk⟩, by rw [readOnce_mono hle id k hk v hv]; rfl⟩

theorem card_answered_le (fuel : Nat) :
    (g.answered text fuel).card ≤ g.size * (text.length + 1) := by
  rw [← card_places]
  exact Finset.card_le_card (Finset.filter_subset ..)

theorem readOnce_of_size_le {fuel id k : Nat} (h : g.size ≤ id) :
    g.readOnce text (fuel + 1) id k = some (none, false) := by
  rw [readOnce_succ, node_of_size_le h]
  rfl

theorem below_of_card_answered {fuel fuel' : Nat} (hpos : 0 < fuel) (hle : fuel ≤ fuel')
    (hcard : (g.answered text fuel).card = (g.answered text fuel').card) (id : Nat) :
    (g.readOnce text fuel' id).Below text (g.readOnce text fuel id) := by
  intro k hk v hv
  by_cases hid : id < g.size
  · -- no place is answered anew, and the places answered before keep their answers
    have hsub : g.answered text fuel ⊆ g.answered text fuel' := answered_mono hle
    have heq := Finset.eq_of_subset_of_card_le hsub hcard.ge
    have hmem : (id, k) ∈ g.answered text fuel' := mem_answered.2 ⟨⟨hid, hk⟩, by rw [hv]; rfl⟩
    rw [← heq] at hmem
    obtain ⟨w, hw⟩ := Option.isSome_iff_exists.1 (mem_answered.1 hmem).2
    rw [hw, ← readOnce_mono hle id k hk w hw, hv]
  · obtain ⟨n, rfl⟩ : ∃ n, fuel = n + 1 := ⟨fuel - 1, by omega⟩
    obtain ⟨n', rfl⟩ : ∃ n', fuel' = n' + 1 := ⟨fuel' - 1, by omega⟩
    rw [readOnce_of_size_le (Nat.not_lt.1 hid)] at hv ⊢
    exact hv

theorem card_answered_of_below {fuel fuel' : Nat} (hle : fuel ≤ fuel')
    (h : ∀ id, (g.readOnce text fuel' id).Below text (g.readOnce text fuel id)) :
    (g.answered text fuel).card = (g.answered text fuel').card := by
  refine le_antisymm (Finset.card_le_card (answered_mono hle)) (Finset.card_le_card ?_)
  rintro ⟨id, k⟩ hmem
  obtain ⟨⟨hid, hk⟩, hsome⟩ := mem_answered.1 hmem
  obtain ⟨v, hv⟩ := Option.isSome_iff_exists.1 hsome
  exact mem_answered.2 ⟨⟨hid, hk⟩, by rw [h id k hk v hv]; rfl⟩

/-- Beyond the length of the text, one unit of fuel that answers nothing new is followed only by
such units. -/
theorem card_answered_stays (m : Nat) :
    (g.answered text (text.length + 1 + m)).card =
        (g.answered text (text.length + 1 + (m + 1))).card →
      (g.answered text (text.length + 1 + (m + 1))).card =
        (g.answered text (text.length + 1 + (m + 2))).card := by
  intro hcard
  have hlen : text.length < text.length + 1 + m := by omega
  have hbelow := below_of_card_answered (by omega) (by omega) hcard
  exact card_answered_of_below (Nat.le_succ _) (readOnce_step (.inr hlen) hbelow)

theorem readOnce_enough (fuel id : Nat) :
    (g.readOnce text fuel id).Below text (g.readOnce text (g.enough text) id) := by
  -- the chain of answered places starts where the fuel exceeds the text
  have hstays : ∀ n ≥ g.size * (text.length + 1),
      (g.answered text (text.length + 1 + n)).card =
        (g.answered text (text.length + 1 + g.size * (text.length + 1))).card := fun n hn =>
    Nat.stabilises_of_monotone
      (f := fun n => (g.answered text (text.length + 1 + n)).card)
      (fun _ _ hle => Finset.card_le_card (answered_mono (Nat.add_le_add_left hle _)))
      (fun _ => card_answered_le _) card_answered_stays hn
  have hbase : text.length + 1 + g.size * (text.length + 1) ≤ g.enough text := by
    rw [enough, Nat.add_mul, Nat.mul_add, Nat.mul_add, Nat.mul_add]
    omega
  intro k hk v hv
  have hmore := readOnce_mono (Nat.le_add_left fuel
    (text.length + 1 + g.size * (text.length + 1))) id k hk v hv
  rw [Nat.add_assoc] at hmore
  have hleast := below_of_card_answered (by omega)
    (by omega) (hstays _ (Nat.le_add_right _ fuel)).symm id k hk v hmore
  exact readOnce_mono hbase id k hk v hleast

theorem readNode_enough (fuel id : Nat) :
    (g.readNode text fuel id).Below text (g.readNode text (g.enough text) id) := by
  intro k hk v hv
  have hlen : text.length < g.enough text := by
    rw [enough, Nat.add_mul, Nat.mul_add, Nat.mul_add]
    omega
  exact Reader.repeated_mono (inside_readOnce fuel id) (readOnce_enough fuel id) _ hk
    (.inr (by omega)) hv

end Graph

end Ebnf
