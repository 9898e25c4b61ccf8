import Ebnf.Proofs.ContextFree
import Ebnf.Proofs.Reading
import Ebnf.Proofs.Syntax.Checked

/-! Whatever is read is derived. The matcher tries options in their order and takes as many
occurrences as it can, but what it takes in the end is a text of the context-free reading. An empty
occurrence stands for all that are still missing, and they may all be empty. -/

namespace Ebnf

namespace Repetition

variable {r : Repetition} {count : Nat}

theorem hasRoom_iff : r.hasRoom count = true ↔ ∀ max, r.max = some max → count < max := by
  unfold hasRoom
  cases r.max <;> simp

theorem admits_iff : r.admits count = true ↔
    r.min ≤ count ∧ ∀ max, r.max = some max → count ≤ max := by
  unfold admits
  cases r.max <;> simp

theorem stop_of_admits (h : r.admits count = true) (k : Nat) : r.stop count k = some k := by
  rw [stop, if_pos (admits_iff.1 h).1]

theorem stop_eq_some {k m : Nat} (h : r.stop count k = some m)
    (hmax : ∀ max, r.max = some max → count ≤ max) : m = k ∧ r.admits count = true := by
  unfold stop at h
  split at h
  · next hmin => exact ⟨(Option.some.inj h).symm, admits_iff.2 ⟨hmin, hmax⟩⟩
  · cases h

theorem exists_admits (hr : r.IsProper) (hmax : ∀ max, r.max = some max → count ≤ max) :
    ∃ more, r.admits (count + more) = true := by
  refine ⟨r.min - count, admits_iff.2 ⟨by omega, fun max hsome => ?_⟩⟩
  have hproper := hr max hsome
  have hle := hmax max hsome
  omega

end Repetition

/-- What a text is that a task reads. So many occurrences may have gone before. -/
def Task.Yields (g : Grammar) : Task → List Char → Prop
  | once id, text => Derives g (.once id) text 0
  | rest id count, text =>
    (∀ max, (g.graph.node id).repetition.max = some max → count ≤ max) →
      ∃ more, (g.graph.node id).repetition.admits (count + more) = true ∧
        Derives g (.times id more) text 0
  | inTurn ids, text => Derives g (.inTurn ids) text 0
  | firstOf ids, text => ∃ id ∈ ids, Derives g (.whole id) text 0

theorem Task.Yields.whole {g : Grammar} {id : NodeId} {text : List Char}
    (h : (Task.whole id).Yields g text) : Derives g (.whole id) text 0 := by
  obtain ⟨count, hcount, htext⟩ := h fun _ _ => Nat.zero_le _
  rw [Nat.zero_add] at hcount
  exact .whole hcount htext

theorem Reads.yields {g : Grammar} (hproper : ∀ id, (g.graph.node id).repetition.IsProper)
    {text : List Char} {task : Task} {k m : Nat} {e : Option Nat} {raised : Bool}
    (h : Reads g text task k e raised) (he : e = some m) :
    ∃ t, text.drop k = t ++ text.drop m ∧ task.Yields g t := by
  induction h generalizing m with
  | @literal id k l hk hprefix =>
    obtain ⟨rest, hrest⟩ := hprefix
    cases he
    refine ⟨l.toList, ?_, .terminal hk⟩
    rw [← List.drop_drop, ← hrest, List.drop_left]
  | @character id k set c hk hc hin =>
    cases he
    exact ⟨[c], List.drop_eq_getElem?_toList_append.trans (by rw [hc]; rfl), .character hk hin⟩
  | reference hk hroot _ ih =>
    obtain ⟨t, ht, hyields⟩ := ih he
    exact ⟨t, ht, .reference hk hroot hyields⟩
  | group hk _ ih =>
    obtain ⟨t, ht, hyields⟩ := ih he
    exact ⟨t, ht, .group hk hyields⟩
  | rule hk _ ih =>
    obtain ⟨t, ht, hyields⟩ := ih he
    exact ⟨t, ht, .rule hk hyields⟩
  | choice hk _ ih =>
    obtain ⟨t, ht, option, hoption, hyields⟩ := ih he
    exact ⟨t, ht, .option hk hoption hyields⟩
  | lookAhead hk =>
    split at he <;> cases he
    exact ⟨[], rfl, .lookAhead hk⟩
  | cut hk =>
    cases he
    exact ⟨[], rfl, .cut hk⟩
  | full | last =>
    refine ⟨[], ?_, fun hmax => ?_⟩
    · unfold Repetition.stop at he
      split at he <;> cases he
      rfl
    · exact ⟨0, (Repetition.stop_eq_some he hmax).2, .noTimes⟩
  | @empty id count k raised _ _ ih =>
    cases he
    obtain ⟨t, ht, hyields⟩ := ih rfl
    obtain rfl := List.self_eq_append_left.1 ht
    refine ⟨[], rfl, fun hmax => ?_⟩
    obtain ⟨more, hmore⟩ := Repetition.exists_admits (hproper id) hmax
    exact ⟨more, hmore, hyields.times_nil more⟩
  | more hroom _ _ _ ih₁ ih₂ =>
    obtain ⟨first, hfirst, hyields⟩ := ih₁ rfl
    obtain ⟨rest, hrest, hmore⟩ := ih₂ he
    refine ⟨first ++ rest, by rw [hfirst, hrest, List.append_assoc], fun _ => ?_⟩
    obtain ⟨more, hadmits, hderives⟩ := hmore (Repetition.hasRoom_iff.1 hroom)
    refine ⟨more + 1, ?_, .oneMore hyields hderives⟩
    rwa [Nat.add_assoc, Nat.add_comm 1] at hadmits
  | done =>
    cases he
    exact ⟨[], rfl, .done⟩
  | onward _ _ ih₁ ih₂ =>
    obtain ⟨first, hfirst, hyields⟩ := ih₁ rfl
    obtain ⟨rest, hrest, hmore⟩ := ih₂ he
    refine ⟨first ++ rest, by rw [hfirst, hrest, List.append_assoc], ?_⟩
    exact .onward hyields.whole hmore
  | taken _ ih =>
    obtain ⟨t, ht, hyields⟩ := ih he
    exact ⟨t, ht, _, List.mem_cons_self, hyields.whole⟩
  | skipped _ _ _ ih =>
    obtain ⟨t, ht, option, hoption, hyields⟩ := ih he
    exact ⟨t, ht, option, List.mem_cons_of_mem _ hoption, hyields⟩
  | noLiteral | noCharacter | exhausted | blocked | committed => cases he

end Ebnf
