import Ebnf.Proofs.Reading.Failing
import Mathlib.Data.Nat.Find

/-! Cursors as offsets. Whatever is done with a cursor, it stands for the number of characters
before it: what it answers can be read off the text and that number alone, and so can its place,
which is therefore the same whichever way it was come to. -/

namespace Ebnf

/-- What can be asked of a cursor. Copies are values, so that it can be set back to any place where
it has been, and a slice can start at any of them; these are counted from the last one on. -/
inductive CursorCall where
  | next
  | consume (cs : List Char)
  | moveTo (index : Nat)
  | jumpPast (delimiter : List Char)
  | jumpBy (offset : Int)
  | jumpWhile (p : Char → Bool)
  | reload (past : Nat)
  | hasNext
  | current
  | peek (len : Nat)
  | get (len offset : Nat)
  | isAt (cs : List Char)
  | remainder
  | sliceFrom (past : Nat)

inductive CursorAnswer where
  | nothing
  | flag (b : Bool)
  | character (c : Option Char)
  | characters (cs : List Char)
deriving DecidableEq

namespace Cursor

def call (past : List Cursor) (c : Cursor) : CursorCall → CursorAnswer × Cursor
  | .next =>
    match c.next with
    | some (ch, d) => (.character (some ch), d)
    | none => (.character none, c)
  | .consume cs =>
    match c.consume cs with
    | some d => (.flag true, d)
    | none => (.flag false, c)
  | .moveTo index => (.nothing, c.moveTo index)
  | .jumpPast delimiter => (.flag (c.jumpPast delimiter).1, (c.jumpPast delimiter).2)
  | .jumpBy offset => (.nothing, c.jumpBy offset)
  | .jumpWhile p => (.nothing, c.jumpWhile p)
  | .reload n => (.nothing, past.getD n c)
  | .hasNext => (.flag c.hasNext, c)
  | .current => (.character c.current, c)
  | .peek len => (.characters (c.peek len), c)
  | .get len offset => (.characters (c.get len offset), c)
  | .isAt cs => (.flag (c.isAt cs), c)
  | .remainder => (.characters c.ahead, c)
  | .sliceFrom n => (.characters (c.sliceFrom (past.getD n c).index), c)

/-- Calls in turn: the answer to each, and where the cursor is after it. -/
def run (past : List Cursor) (c : Cursor) : List CursorCall → List (CursorAnswer × Position)
  | [] => []
  | call :: calls =>
    let (answer, d) := c.call past call
    (answer, d.position) :: d.run (c :: past) calls

end Cursor

namespace Offset

def ofIndex (text : List Char) (index : Nat) : Nat :=
  Nat.findGreatest (fun k => byteCount (text.take k) ≤ min index (byteCount text)) text.length

def find? (text : List Char) (k : Nat) (delimiter : List Char) : Option Nat :=
  (List.range (text.length + 1)).find? fun m => k ≤ m ∧ delimiter <+: text.drop m

/-- Bytes before the place, newlines before it, and characters behind the last of these. -/
def position (text : List Char) (k : Nat) : Position :=
  ⟨byteCount (text.take k), (text.take k).count '\n',
    ((text.take k).reverse.takeWhile (· ≠ '\n')).length⟩

def call (text : List Char) (past : List Nat) (k : Nat) : CursorCall → CursorAnswer × Nat
  | .next => (.character text[k]?, min (k + 1) text.length)
  | .consume cs => if cs <+: text.drop k then (.flag true, k + cs.length) else (.flag false, k)
  | .moveTo index => (.nothing, ofIndex text index)
  | .jumpPast delimiter =>
    match find? text k delimiter with
    | some m => (.flag true, m + delimiter.length)
    | none => (.flag false, text.length)
  | .jumpBy offset => (.nothing, (max 0 (min (k + offset) text.length)).toNat)
  | .jumpWhile p => (.nothing, k + ((text.drop k).takeWhile p).length)
  | .reload n => (.nothing, past.getD n k)
  | .hasNext => (.flag (k < text.length), k)
  | .current => (.character text[k]?, k)
  | .peek len => (.characters ((text.drop k).take len), k)
  | .get len offset => (.characters ((text.drop (k + offset)).take len), k)
  | .isAt cs => (.flag (cs <+: text.drop k), k)
  | .remainder => (.characters (text.drop k), k)
  | .sliceFrom n => (.characters ((text.take k).drop (past.getD n k)), k)

/-- Calls in turn: the answer to each, and the offset after it. -/
def run (text : List Char) (past : List Nat) (k : Nat) : List CursorCall → List (CursorAnswer × Nat)
  | [] => []
  | call :: calls =>
    let (answer, m) := Offset.call text past k call
    (answer, m) :: run text (k :: past) m calls

end Offset

namespace Cursor

variable {text : List Char} {k : Nat}

theorem eq_atOffset {c : Cursor} (h : c.IsPlaced) : c = atOffset c.text c.back.length := by
  obtain ⟨back, ahead, position⟩ := c
  have hposition : position = Position.start.along back.reverse := h
  simp [atOffset, ofChars, advance, text, hposition, List.reverseAux_eq]

theorem isPlaced_atOffset : (atOffset text k).IsPlaced := (isPlaced_ofChars text).advance k

@[simp] theorem text_atOffset : (atOffset text k).text = text := by
  rw [atOffset, text_advance, text_ofChars]

theorem back_atOffset : (atOffset text k).back = (text.take k).reverse := by
  simp [atOffset, ofChars, advance, List.reverseAux_eq]

theorem position_atOffset : (atOffset text k).position = Offset.position text k := by
  have hplaced : (atOffset text k).position = Position.start.along (text.take k) := by
    rw [isPlaced_atOffset, back_atOffset, List.reverse_reverse]
  have hcolumn := column_along_start (text.take k).reverse
  rw [List.reverse_reverse] at hcolumn
  rw [hplaced, Offset.position, Position.mk.injEq]
  refine ⟨?_, ?_, hcolumn⟩
  · rw [Position.index_along]
    exact Nat.zero_add _
  · rw [Position.line_along]
    exact Nat.zero_add _

theorem atOffset_min : atOffset text (min k text.length) = atOffset text k := by
  rcases Nat.le_total k text.length with hle | hle
  · rw [Nat.min_eq_left hle]
  · rw [Nat.min_eq_right hle]
    simp [atOffset, ofChars, advance, List.take_of_length_le hle, List.drop_eq_nil_of_le hle]

theorem retreat_atOffset (hk : k ≤ text.length) (n : Nat) :
    (atOffset text k).retreat n = atOffset text (k - n) := by
  have hback : ((atOffset text k).retreat n).back.length = k - n := by
    rw [retreat, List.length_drop, back_atOffset, List.length_reverse, List.length_take,
      Nat.min_eq_left hk]
  have hplaced := eq_atOffset ((@isPlaced_atOffset text k).retreat n)
  rwa [text_retreat, text_atOffset, hback] at hplaced

theorem byteCount_take_le {m : Nat} (h : k ≤ m) :
    byteCount (text.take k) ≤ byteCount (text.take m) := by
  rw [← Nat.add_sub_cancel' h, List.take_add, byteCount_append]
  exact Nat.le_add_right _ _

theorem byteCount_take_le_byteCount : byteCount (text.take k) ≤ byteCount text := by
  rw [← congrArg byteCount (List.take_append_drop k text), byteCount_append]
  exact Nat.le_add_right _ _

theorem ofIndex_eq {index : Nat} (hk : k ≤ text.length) (hle : byteCount (text.take k) ≤ index)
    (hlt : k < text.length → index < byteCount (text.take (k + 1))) :
    Offset.ofIndex text index = k := by
  refine Nat.findGreatest_eq_iff.2 ⟨hk, fun _ => ?_, fun m hm hmlen hbytes => ?_⟩
  · exact Nat.le_min.2 ⟨hle, byteCount_take_le_byteCount⟩
  · have hnext := hlt (Nat.lt_of_lt_of_le hm hmlen)
    have hmono : byteCount (text.take (k + 1)) ≤ byteCount (text.take m) := byteCount_take_le hm
    have hindex := Nat.le_trans hbytes (Nat.min_le_left _ _)
    omega

theorem fitting_spec (room : Nat) (cs : List Char) : fitting room cs ≤ cs.length ∧
    byteCount (cs.take (fitting room cs)) ≤ room ∧
      (fitting room cs < cs.length → room < byteCount (cs.take (fitting room cs + 1))) := by
  induction cs generalizing room with
  | nil => exact ⟨Nat.le_refl _, Nat.zero_le _, fun h => absurd h (Nat.lt_irrefl _)⟩
  | cons c cs ih =>
    obtain ⟨hlen, hle, hlt⟩ := ih (room - c.utf8Size)
    rw [fitting]
    split
    · next hfits =>
      simp only [List.length_cons, List.take_succ_cons, byteCount, Nat.add_le_add_iff_right,
        Nat.add_lt_add_iff_right]
      exact ⟨hlen, by omega, fun h => by have := hlt h; omega⟩
    · next hfull =>
      refine ⟨Nat.zero_le _, Nat.zero_le _, fun _ => ?_⟩
      simp only [Nat.zero_add, List.take_succ_cons, List.take_zero, byteCount]
      omega

theorem covering_spec {room : Nat} {cs : List Char} (hroom : room ≤ byteCount cs) :
    covering room cs ≤ cs.length ∧ room ≤ byteCount (cs.take (covering room cs)) ∧
      (0 < room → 0 < covering room cs ∧
        byteCount (cs.take (covering room cs - 1)) < room) := by
  induction cs generalizing room with
  | nil =>
    have hzero : room = 0 := Nat.le_zero.1 hroom
    exact ⟨Nat.le_refl _, hroom, fun h => by omega⟩
  | cons c cs ih =>
    have hpos := c.utf8Size_pos
    rw [byteCount] at hroom
    obtain ⟨hlen, hle, hlt⟩ := @ih (room - c.utf8Size) (by omega)
    rw [covering]
    split
    · next hzero => exact ⟨Nat.zero_le _, by omega, fun h => by omega⟩
    · next hsome =>
      simp only [List.length_cons, List.take_succ_cons, byteCount, Nat.add_sub_cancel]
      refine ⟨Nat.succ_le_succ hlen, by omega, fun _ => ⟨Nat.succ_pos _, ?_⟩⟩
      -- one character fewer leaves this one out if no more are taken
      rcases Nat.eq_zero_or_pos (covering (room - c.utf8Size) cs) with hnone | hmore
      · rw [hnone, List.take_zero, byteCount]
        omega
      · by_cases hrest : 0 < room - c.utf8Size
        · obtain ⟨-, hbytes⟩ := hlt hrest
          obtain ⟨n, hn⟩ := Nat.exists_eq_succ_of_ne_zero hmore.ne'
          rw [hn, Nat.succ_sub_one] at hbytes
          rw [hn, List.take_succ_cons, byteCount]
          omega
        · have hexact : covering (room - c.utf8Size) cs = 0 := by
            have hnone : room - c.utf8Size = 0 := Nat.le_zero.1 (Nat.not_lt.1 hrest)
            cases cs <;> simp [covering, hnone]
          omega

theorem byteCount_take_sub (hk : k ≤ text.length) (n : Nat) :
    byteCount (text.take (k - n)) + byteCount ((text.take k).reverse.take n) =
      byteCount (text.take k) := by
  have hlength : (text.take k).length = k := List.length_take_of_le hk
  have hback : (text.take k).reverse.take n = ((text.take k).drop (k - n)).reverse := by
    rw [List.take_reverse, hlength]
  have hfront : text.take (k - n) = (text.take k).take (k - n) := by
    rw [List.take_take, Nat.min_eq_left (Nat.sub_le ..)]
  rw [hback, hfront, byteCount_reverse, ← byteCount_append, List.take_append_drop]

theorem moveTo_atOffset (hk : k ≤ text.length) (index : Nat) :
    (atOffset text k).moveTo index = atOffset text (Offset.ofIndex text index) := by
  rw [moveTo, index_atOffset]
  split
  · next hahead =>
    obtain ⟨hlen, hle, hlt⟩ := fitting_spec (index - byteCount (text.take k)) (text.drop k)
    rw [List.length_drop] at hlen hlt
    rw [advance_atOffset, ahead_atOffset]
    refine congrArg (atOffset text) (ofIndex_eq (by omega) ?_ fun hmore => ?_).symm
    · rw [List.take_add, byteCount_append]
      omega
    · have hnext := hlt (by omega)
      rw [Nat.add_assoc, List.take_add, byteCount_append]
      omega
  · next hbehind =>
    have hroom : byteCount (text.take k) - index ≤ byteCount (text.take k).reverse := by
      rw [byteCount_reverse]
      exact Nat.sub_le ..
    obtain ⟨hlen, hle, hlt⟩ := covering_spec hroom
    rw [List.length_reverse, List.length_take_of_le hk] at hlen
    rw [retreat_atOffset hk, back_atOffset]
    generalize covering (byteCount (text.take k) - index) (text.take k).reverse = n at *
    refine congrArg (atOffset text) (ofIndex_eq (by omega) ?_ fun _ => ?_).symm
    · have hbytes := byteCount_take_sub hk n
      omega
    · obtain ⟨hsome, hshort⟩ := hlt (by omega)
      have hbytes := byteCount_take_sub hk (n - 1)
      rw [show k - (n - 1) = k - n + 1 by omega] at hbytes
      omega

theorem distancePast_eq (delimiter cs : List Char) : distancePast delimiter cs =
    ((List.range (cs.length + 1)).find? fun m => delimiter <+: cs.drop m).map
      (· + delimiter.length) := by
  induction cs with
  | nil => cases delimiter <;> simp [distancePast, List.range_succ]
  | cons c cs ih =>
    have hrest : (List.range (cs.length + 1)).map Nat.succ =
        (List.range (cs.length + 1)).map (· + 1) := rfl
    rw [distancePast, List.length_cons, List.range_succ_eq_map, List.find?_cons]
    by_cases hhere : delimiter <+: c :: cs
    · simp [hhere]
    · simp only [List.isPrefixOf_iff_prefix, hhere, if_false, List.drop_zero, decide_false]
      rw [ih, List.find?_map, Option.map_map, Option.map_map]
      congr 1
      funext m
      simp only [Function.comp]
      omega

theorem find?_eq (hk : k ≤ text.length) (delimiter : List Char) :
    Offset.find? text k delimiter = ((List.range ((text.drop k).length + 1)).find? fun m =>
      delimiter <+: (text.drop k).drop m).map (k + ·) := by
  have hrange : text.length + 1 = k + ((text.drop k).length + 1) := by
    rw [List.length_drop]
    omega
  have hnone : (List.range k).find? (fun m => k ≤ m ∧ delimiter <+: text.drop m) = none := by
    rw [List.find?_eq_none]
    intro m hm
    have hless := List.mem_range.1 hm
    simp only [decide_eq_true_eq, not_and]
    omega
  rw [Offset.find?, hrange, List.range_add, List.find?_append, hnone, Option.none_or,
    List.find?_map]
  congr 2
  funext m
  simp [List.drop_drop]

theorem jumpPast_atOffset (hk : k ≤ text.length) (delimiter : List Char) :
    (atOffset text k).jumpPast delimiter = match Offset.find? text k delimiter with
      | some m => (true, atOffset text (m + delimiter.length))
      | none => (false, atOffset text text.length) := by
  rw [jumpPast, ahead_atOffset, distancePast_eq, find?_eq hk]
  cases (List.range ((text.drop k).length + 1)).find? fun m =>
    delimiter <+: (text.drop k).drop m with
  | none =>
    simp only [Option.map_none, toEnd, advance_atOffset, ahead_atOffset, List.length_drop]
    rw [Nat.add_sub_cancel' hk]
  | some m =>
    simp only [Option.map_some, advance_atOffset]
    rw [Nat.add_assoc]

theorem sliceFrom_eq (m : Nat) :
    (atOffset text k).sliceFrom (atOffset text m).index = (text.take k).drop m := by
  rcases Nat.le_total m k with hle | hle
  · rw [sliceFrom_atOffset text hle, List.drop_take]
  · have hindex : (atOffset text k).index - (atOffset text m).index = 0 := by
      rw [index_atOffset, index_atOffset]
      exact Nat.sub_eq_zero_of_le (byteCount_take_le hle)
    have hnone : ∀ cs, covering 0 cs = 0 := fun cs => by cases cs <;> rfl
    rw [sliceFrom, hindex, hnone, List.take_zero, List.reverse_nil,
      List.drop_eq_nil_of_le (Nat.le_trans (List.length_take_le ..) hle)]

theorem getD_map_atOffset (past : List Nat) (n : Nat) :
    (past.map (atOffset text)).getD n (atOffset text k) = atOffset text (past.getD n k) := by
  simp only [List.getD_eq_getElem?_getD, List.getElem?_map, Option.getD_map]

theorem call_atOffset (past : List Nat) (hk : k ≤ text.length) (c : CursorCall) :
    (atOffset text k).call (past.map (atOffset text)) c =
      ((Offset.call text past k c).1, atOffset text (Offset.call text past k c).2) := by
  cases c with
  | next =>
    rw [call, next_atOffset, Offset.call]
    by_cases hend : k < text.length
    · rw [List.getElem?_eq_getElem hend, Nat.min_eq_left hend]
      rfl
    · rw [List.getElem?_eq_none (Nat.not_lt.1 hend), Nat.min_eq_right (by omega),
        Nat.le_antisymm hk (Nat.not_lt.1 hend)]
      rfl
  | consume cs =>
    rw [call, consume_atOffset, Offset.call]
    by_cases hstands : cs <+: text.drop k
    · simp only [hstands, if_true]
    · simp only [hstands, if_false]
  | moveTo index => rw [call, moveTo_atOffset hk]; rfl
  | jumpPast delimiter =>
    rw [call, jumpPast_atOffset hk, Offset.call]
    cases Offset.find? text k delimiter <;> rfl
  | jumpBy offset =>
    rw [call, Offset.call]
    cases offset with
    | ofNat n =>
      rw [jumpBy, advance_atOffset, ← atOffset_min]
      refine congrArg (fun k => (CursorAnswer.nothing, atOffset text k)) ?_
      rw [Int.ofNat_eq_natCast]
      omega
    | negSucc n =>
      rw [jumpBy, retreat_atOffset hk]
      refine congrArg (fun k => (CursorAnswer.nothing, atOffset text k)) ?_
      omega
  | jumpWhile p => rw [call, jumpWhile, advance_atOffset]; rfl
  | reload n => rw [call, getD_map_atOffset]; rfl
  | hasNext =>
    have hflag : (atOffset text k).hasNext = decide (k < text.length) := by
      rw [hasNext, ahead_atOffset, Bool.eq_iff_iff]
      simp
    rw [call, hflag]
    rfl
  | current => rw [call, current, ahead_atOffset, List.head?_drop]; rfl
  | peek len => rw [call, peek, get, List.drop_zero]; rfl
  | get len offset => rw [call, get, ahead_atOffset, List.drop_drop]; rfl
  | isAt cs =>
    have hflag : (atOffset text k).isAt cs = decide (cs <+: text.drop k) := by
      rw [isAt, ahead_atOffset, Bool.eq_iff_iff, List.isPrefixOf_iff_prefix, decide_eq_true_eq]
    rw [call, hflag]
    rfl
  | remainder => rfl
  | sliceFrom n => rw [call, getD_map_atOffset, sliceFrom_eq]; rfl

theorem call_le_length {past : List Nat} (hk : k ≤ text.length)
    (hpast : ∀ m ∈ past, m ≤ text.length) (c : CursorCall) :
    (Offset.call text past k c).2 ≤ text.length := by
  have run : ∀ n, n ≤ (text.drop k).length → k + n ≤ text.length := by
    intro n hn
    rw [List.length_drop] at hn
    omega
  cases c with
  | next => exact Nat.min_le_right ..
  | consume cs =>
    rw [Offset.call]
    split
    · next hstands => exact run _ hstands.length_le
    · exact hk
  | moveTo index => exact Nat.findGreatest_le _
  | jumpPast delimiter =>
    rw [Offset.call]
    split
    · next m hfind =>
      have hfound := List.find?_some hfind
      have hstands := (of_decide_eq_true hfound).2.length_le
      have hm := List.mem_range.1 (List.mem_of_find?_eq_some hfind)
      rw [List.length_drop] at hstands
      show m + delimiter.length ≤ text.length
      omega
    · exact Nat.le_refl _
  | jumpBy offset =>
    rw [Offset.call]
    omega
  | jumpWhile p => exact run _ (List.takeWhile_prefix p).length_le
  | reload n =>
    rw [Offset.call, List.getD_eq_getElem?_getD]
    cases hpast' : past[n]? with
    | none => exact hk
    | some m => exact hpast m (List.mem_of_getElem? hpast')
  | _ => exact hk

theorem run_atOffset {past : List Nat} (hk : k ≤ text.length)
    (hpast : ∀ m ∈ past, m ≤ text.length) (calls : List CursorCall) :
    (atOffset text k).run (past.map (atOffset text)) calls =
        (Offset.run text past k calls).map (fun (answer, k) => (answer, Offset.position text k)) ∧
      ∀ step ∈ Offset.run text past k calls, step.2 ≤ text.length := by
  induction calls generalizing past k with
  | nil => exact ⟨rfl, fun _ h => nomatch h⟩
  | cons c calls ih =>
    have hcall := call_atOffset past hk c
    have hlength := call_le_length hk hpast c
    have hpast' : ∀ m ∈ k :: past, m ≤ text.length := List.forall_mem_cons.2 ⟨hk, hpast⟩
    obtain ⟨hrun, hsteps⟩ := ih hlength hpast'
    refine ⟨?_, List.forall_mem_cons.2 ⟨hlength, hsteps⟩⟩
    rw [run, hcall]
    simp only [Offset.run, List.map_cons, position_atOffset]
    rw [← hrun]
    rfl

theorem run_ofString (text : String) (calls : List CursorCall) :
    (ofString text).run [] calls =
        (Offset.run text.toList [] 0 calls).map
          (fun (answer, k) => (answer, Offset.position text.toList k)) ∧
      ∀ step ∈ Offset.run text.toList [] 0 calls, step.2 ≤ text.toList.length :=
  @run_atOffset text.toList 0 [] (Nat.zero_le _) (fun _ h => nomatch h) calls

end Cursor

end Ebnf
