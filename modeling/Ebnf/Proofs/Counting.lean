import Ebnf.Proofs.Lexing.Printing
import Ebnf.Proofs.Syntax.Checked

/-! Counted quantifiers. A number is read up to the first character that is no digit. Bounds below
the limit that are printed in braces, as two numbers or with the second one missing, are read back
as the same bounds. -/

namespace Ebnf

namespace Counted

variable {digits cs rest : List Char}

theorem value_eq_ofDigitChars (digits : List Char) :
    value digits = Nat.ofDigitChars 10 digits 0 := by
  simp only [value, Nat.ofDigitChars_eq_foldl, Nat.mul_comm 10]

theorem value_toDigits (n : Nat) : value (Nat.toDigits 10 n) = n := by
  rw [value_eq_ofDigitChars, Nat.ofDigitChars_ten_toDigits]

theorem isDigit_of_mem_toDigits {n : Nat} {c : Char} (h : c ∈ Nat.toDigits 10 n) :
    c.isDigit = true :=
  Nat.isDigit_of_mem_toDigits (by decide) (by decide) h

theorem isBlank_of_isDigit {c : Char} (h : c.isDigit = true) : isBlank c = false := by
  rw [← Bool.not_eq_true]
  intro hblank
  simp only [isBlank, Bool.or_eq_true, decide_eq_true_eq] at hblank
  rcases hblank with ((rfl | rfl) | rfl) | rfl <;> exact absurd h (by decide)

theorem number?_append (hdigits : ∀ c ∈ digits, c.isDigit = true) (hsome : digits ≠ [])
    (hlimit : value digits < limit) (hstops : Stops Char.isDigit rest.head?) :
    number? (digits ++ rest) = some (value digits, rest) := by
  have hrun : (digits ++ rest).takeWhile Char.isDigit = digits := takeWhile_of_stops hdigits hstops
  have hbehind : (digits ++ rest).dropWhile Char.isDigit = rest := by
    have hparts := @List.takeWhile_append_dropWhile _ Char.isDigit (digits ++ rest)
    rw [hrun] at hparts
    exact List.append_cancel_left hparts
  have hsmall : ¬ (digits.isEmpty = true ∨ limit ≤ value digits) := by
    rw [List.isEmpty_iff, not_or]
    exact ⟨hsome, Nat.not_le.2 hlimit⟩
  simp only [number?, hrun, hbehind, if_neg hsmall]

theorem number?_of_stops (h : Stops Char.isDigit cs.head?) : number? cs = none := by
  have hrun : cs.takeWhile Char.isDigit = [] := @takeWhile_of_stops _ [] cs nofun h
  simp [number?, hrun]

theorem skipBlanks_of_stops (h : Stops isBlank cs.head?) : skipBlanks cs = cs := by
  cases cs with
  | nil => rfl
  | cons c cs => exact List.dropWhile_cons_of_neg (by simp [h c rfl])

def printBound : Option Nat → List Char
  | some n => Nat.toDigits 10 n
  | none => []

@[simp] theorem printBound_some (n : Nat) : printBound (some n) = Nat.toDigits 10 n := rfl

theorem isDigit_of_mem_printBound {bound : Option Nat} {c : Char} (h : c ∈ printBound bound) :
    c.isDigit = true := by
  cases bound with
  | none => cases h
  | some n => exact isDigit_of_mem_toDigits h

theorem stops_of_eq_false {p : Char → Bool} {c : Char} (h : p c = false) :
    Stops p (c :: rest).head? := by
  rintro d hd
  obtain rfl := Option.some.inj hd
  exact h

theorem skipBlanks_toDigits (n : Nat) (rest : List Char) :
    skipBlanks (Nat.toDigits 10 n ++ rest) = Nat.toDigits 10 n ++ rest := by
  obtain ⟨d, ds, hdigits⟩ := List.exists_cons_of_ne_nil (@Nat.toDigits_ne_nil n 10)
  have hd : d.isDigit = true := isDigit_of_mem_toDigits (hdigits ▸ List.mem_cons_self)
  rw [hdigits, List.cons_append]
  exact skipBlanks_of_stops (stops_of_eq_false (isBlank_of_isDigit hd))

theorem number?_toDigits {n : Nat} (h : n < limit) (hstops : Stops Char.isDigit rest.head?) :
    number? (skipBlanks (Nat.toDigits 10 n ++ rest)) = some (n, rest) := by
  have hvalue := value_toDigits n
  have hread := number?_append (fun _ => isDigit_of_mem_toDigits) Nat.toDigits_ne_nil
    (hvalue.symm ▸ h) hstops
  rw [skipBlanks_toDigits, hread, hvalue]

theorem bound_printBound {b : Option Nat} {c : Char} (h : ∀ n ∈ b, n < limit)
    (hdigit : c.isDigit = false) (hblank : isBlank c = false) :
    bound (printBound b ++ c :: rest) = (b, c :: rest) := by
  have hskip : skipBlanks (c :: rest) = c :: rest :=
    skipBlanks_of_stops (stops_of_eq_false hblank)
  cases b with
  | none =>
    have hnone : number? (c :: rest) = none := number?_of_stops (stops_of_eq_false hdigit)
    simp only [bound, printBound, List.nil_append, hskip, hnone]
  | some n =>
    have hstops : Stops Char.isDigit (c :: rest).head? := stops_of_eq_false hdigit
    have hread := number?_toDigits (h n rfl) hstops
    simp only [bound, printBound_some, hread, hskip]

end Counted

namespace Repetition

open Counted

/-- Bounds in braces, with a comma between them. -/
def print (r : Repetition) : List Char :=
  '\x7b' :: (printBound (some r.min) ++ ',' :: (printBound r.max ++ ['\x7d']))

/-- Bounds that a counted quantifier can denote. -/
structure IsCounted (r : Repetition) : Prop where
  proper : r.IsProper
  min : r.min < limit
  max : ∀ max ∈ r.max, max < limit

theorem fixed?_print {r : Repetition} (h : r.min < limit) : fixed? r.print = none := by
  let behind := printBound r.max ++ ['\x7d']
  have hdigit : Stops Char.isDigit (',' :: behind).head? := stops_of_eq_false rfl
  have hblank : Stops isBlank (',' :: behind).head? := stops_of_eq_false rfl
  have hread := number?_toDigits h hdigit
  have hskip := skipBlanks_of_stops hblank
  simp [print, fixed?, behind, hread, hskip]

theorem range?_print {r : Repetition} (h : r.IsCounted) : range? r.print = some r := by
  have hmin : bound (printBound (some r.min) ++ ',' :: (printBound r.max ++ ['\x7d'])) =
      (some r.min, ',' :: (printBound r.max ++ ['\x7d'])) :=
    bound_printBound (fun n hn => Option.some.inj hn ▸ h.min) rfl rfl
  have hmax : bound (printBound r.max ++ ['\x7d']) = (r.max, ['\x7d']) :=
    bound_printBound h.max rfl rfl
  simp only [print, range?, hmin, hmax, Option.getD_some]

theorem repetition_print {r : Repetition} (h : r.IsCounted) :
    (Mark.counted (String.ofList r.print)).repetition = .ok r := by
  have hproper : ¬ r.max.any (· < r.min) = true := by
    intro hany
    obtain ⟨max, hmax, hlt⟩ := (Option.any_eq_true _ _).1 hany
    exact absurd (h.proper max hmax) (Nat.not_le.2 (of_decide_eq_true hlt))
  simp only [Mark.repetition, String.toList_ofList, fixed?_print h.min, range?_print h,
    Option.none_or, if_neg hproper]

example : String.ofList (print ⟨2, none⟩) = "\x7b2,\x7d" := by decide +kernel

theorem isBraced_print (r : Repetition) : IsBraced r.print := by
  refine ⟨printBound (some r.min) ++ ',' :: printBound r.max, ?_, ?_⟩
  · rw [List.mem_append, List.mem_cons, not_or, not_or]
    exact ⟨fun h => absurd (isDigit_of_mem_printBound h) (by decide), by decide,
      fun h => absurd (isDigit_of_mem_printBound h) (by decide)⟩
  · simp [print]

end Repetition

end Ebnf
