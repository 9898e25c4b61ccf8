/-! Tables with text keys. The entries stand in code point order of their keys, no key twice. -/

namespace Ebnf

structure Table (α : Type) where
  entries : List (String × α)
  sorted : entries.Pairwise fun a b => a.1 < b.1

namespace Table

variable {α : Type}

def empty : Table α := ⟨[], .nil⟩

def keys (t : Table α) : List String := t.entries.map Prod.fst

/-- Replaces the entry of a key in a sorted list, or adds it in its place. -/
def insertSorted (key : String) (a : α) : List (String × α) → List (String × α)
  | [] => [(key, a)]
  | (k, b) :: rest =>
    if key < k then (key, a) :: (k, b) :: rest
    else if key = k then (key, a) :: rest
    else (k, b) :: insertSorted key a rest

theorem mem_insertSorted {key : String} {a : α} {entries : List (String × α)} {e : String × α}
    (h : e ∈ insertSorted key a entries) : e = (key, a) ∨ e ∈ entries := by
  induction entries with
  | nil => simpa [insertSorted] using h
  | cons x rest ih =>
    rw [insertSorted] at h
    split at h
    · simpa using h
    · split at h
      · simp only [List.mem_cons] at h ⊢
        exact h.imp_right .inr
      · simp only [List.mem_cons] at h ⊢
        exact h.elim (fun h => .inr (.inl h)) fun h => (ih h).imp_right .inr

theorem sorted_insertSorted {entries : List (String × α)}
    (h : entries.Pairwise fun a b => a.1 < b.1) (key : String) (a : α) :
    (insertSorted key a entries).Pairwise fun a b => a.1 < b.1 := by
  induction entries with
  | nil => simp [insertSorted]
  | cons x rest ih =>
    have ⟨above, rest_sorted⟩ := List.pairwise_cons.1 h
    rw [insertSorted]
    split
    · next lt =>
      refine List.pairwise_cons.2 ⟨fun e he => ?_, h⟩
      rcases List.mem_cons.1 he with rfl | he
      · exact lt
      · exact String.lt_trans lt (above e he)
    · next not_lt =>
      split
      · next eq => exact List.pairwise_cons.2 ⟨fun e he => eq ▸ above e he, rest_sorted⟩
      · next ne =>
        refine List.pairwise_cons.2 ⟨fun e he => ?_, ih rest_sorted⟩
        rcases mem_insertSorted he with rfl | he
        · exact Std.lt_of_le_of_ne (String.not_lt.1 not_lt) fun eq => ne eq.symm
        · exact above e he

def insert (t : Table α) (key : String) (a : α) : Table α :=
  ⟨insertSorted key a t.entries, sorted_insertSorted t.sorted key a⟩

def ofList (entries : List (String × α)) : Table α :=
  entries.foldl (fun t (key, a) => t.insert key a) empty

end Table

end Ebnf
