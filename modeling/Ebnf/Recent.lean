/-! A log that keeps only its most recent entries. It is cut back once it holds twice as many as it
has to keep, so that adding one takes constant time on average. -/

namespace Ebnf

structure Recent (α : Type) where
  capacity : Nat
  newest : List α
  held : Nat

namespace Recent

variable {α : Type}

def empty (capacity : Nat) : Recent α := ⟨capacity, [], 0⟩

def push (r : Recent α) (a : α) : Recent α :=
  if 2 * r.capacity ≤ r.held + 1 then ⟨r.capacity, (a :: r.newest).take r.capacity, r.capacity⟩
  else ⟨r.capacity, a :: r.newest, r.held + 1⟩

def append (r : Recent α) (as : List α) : Recent α := as.foldl push r

/-- The last `n` entries that are kept, the oldest first. -/
def last (r : Recent α) (n : Nat) : List α := (r.newest.take (min n r.capacity)).reverse

def toList (r : Recent α) : List α := r.last r.capacity

theorem capacity_push (r : Recent α) (a : α) : (r.push a).capacity = r.capacity := by
  rw [push]
  split <;> rfl

theorem take_newest_push {r : Recent α} {l : List α}
    (h : r.newest.take r.capacity = l.take r.capacity) (a : α) :
    (r.push a).newest.take r.capacity = (a :: l).take r.capacity := by
  have grown : (a :: r.newest).take r.capacity = (a :: l).take r.capacity := by
    cases hc : r.capacity with
    | zero => rfl
    | succ k =>
      rw [hc] at h
      have hk := congrArg (List.take k) h
      simpa [List.take_take, Nat.min_eq_left (Nat.le_succ k)] using hk
  rw [push]
  split
  · simpa [List.take_take] using grown
  · exact grown

theorem toList_append {r : Recent α} {l : List α}
    (h : r.newest.take r.capacity = l.take r.capacity) (as : List α) :
    (r.append as).toList = ((as.reverse ++ l).take r.capacity).reverse := by
  induction as generalizing r l with
  | nil => simp [append, toList, last, h]
  | cons a as ih =>
    have hc := capacity_push r a
    have := ih (r := r.push a) (l := a :: l) (by rw [hc]; exact take_newest_push h a)
    rw [append, List.foldl_cons, ← append, this, hc]
    simp

/-- A log shows the last entries of all that were added, the oldest first. -/
theorem toList_append_empty (capacity : Nat) (as : List α) :
    ((empty capacity).append as).toList = as.drop (as.length - capacity) := by
  rw [toList_append (l := []) rfl, List.append_nil, List.take_reverse, List.reverse_reverse]
  rfl

end Recent

end Ebnf
