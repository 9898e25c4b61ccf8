import Ebnf.Proofs.Offsets
import Ebnf.Text.ByteCursor

/-! Byte indices as offsets. A byte index between two characters is the byte count of the characters
before it, and so is every index that a cursor is ever at. So no slice starts or ends within a
character, and a cursor that counts bytes answers as an offset does. -/

namespace Ebnf

theorem utf8ByteSize_ofList (cs : List Char) : (String.ofList cs).utf8ByteSize = byteCount cs := by
  induction cs with
  | nil => rfl
  | cons ch cs ih =>
    have hcons : String.ofList (ch :: cs) = String.ofList [ch] ++ String.ofList cs := by
      rw [← String.ofList_append]
      rfl
    have hone : (String.ofList [ch]).utf8ByteSize = ch.utf8Size := String.utf8ByteSize_singleton
    rw [hcons, String.utf8ByteSize_append, ih, hone, byteCount]

namespace Bytes

variable {cs : List Char} {a b k : Nat}

theorem isBoundary_iff {n : Nat} : isBoundary (String.ofList cs) n = true ↔
    ∃ k ≤ cs.length, n = byteCount (cs.take k) := by
  rw [isBoundary, String.Pos.Raw.isValid_eq_true_iff, String.Pos.Raw.isValid_iff_exists_append]
  constructor
  · rintro ⟨front, back, happend, hend⟩
    have hlist : cs = front.toList ++ back.toList := by
      rw [← String.toList_append, ← happend, String.toList_ofList]
    refine ⟨front.toList.length, ?_, ?_⟩
    · rw [hlist, List.length_append]
      exact Nat.le_add_right _ _
    · have hn := congrArg String.Pos.Raw.byteIdx hend
      rw [hlist, List.take_left, ← utf8ByteSize_ofList, String.ofList_toList]
      exact hn
  · rintro ⟨k, -, rfl⟩
    refine ⟨String.ofList (cs.take k), String.ofList (cs.drop k), ?_, ?_⟩
    · rw [← String.ofList_append, List.take_append_drop]
    · rw [← utf8ByteSize_ofList]
      rfl

theorem slice_append (front mid back : String) :
    slice (front ++ mid ++ back) front.utf8ByteSize (front.utf8ByteSize + mid.utf8ByteSize) =
      some mid := by
  have hstart : isBoundary (front ++ mid ++ back) front.utf8ByteSize = true := by
    rw [isBoundary, String.Pos.Raw.isValid_eq_true_iff, String.Pos.Raw.isValid_iff_exists_append]
    exact ⟨front, mid ++ back, String.append_assoc .., rfl⟩
  have hstop : isBoundary (front ++ mid ++ back) (front.utf8ByteSize + mid.utf8ByteSize) =
      true := by
    rw [isBoundary, String.Pos.Raw.isValid_eq_true_iff, String.Pos.Raw.isValid_iff_exists_append]
    refine ⟨front ++ mid, back, rfl, ?_⟩
    rw [← String.utf8ByteSize_append]
    rfl
  have hbytes : (front ++ mid ++ back).toByteArray.extract front.utf8ByteSize
      (front.utf8ByteSize + mid.utf8ByteSize) = mid.toByteArray := by
    have hfront : front.toByteArray.extract front.utf8ByteSize
        (front.utf8ByteSize + mid.utf8ByteSize) = .empty := by
      rw [ByteArray.extract_eq_empty_iff, String.size_toByteArray]
      exact Nat.min_le_right _ _
    have hmid : mid.toByteArray.extract 0 mid.utf8ByteSize = mid.toByteArray := by
      rw [← String.size_toByteArray, ByteArray.extract_zero_size]
    rw [String.append_assoc, String.toByteArray_append, String.toByteArray_append,
      ByteArray.extract_append, hfront, String.size_toByteArray, Nat.sub_self,
      Nat.add_sub_cancel_left, ByteArray.extract_append, hmid, String.size_toByteArray,
      Nat.sub_self, Nat.zero_sub, ByteArray.extract_same, ByteArray.append_empty,
      ByteArray.empty_append]
  rw [slice, if_pos ⟨Nat.le_add_right _ _, hstart, hstop⟩, hbytes, String.fromUTF8?,
    dif_pos mid.isValidUTF8]
  rfl

theorem slice_take (h : a ≤ b) :
    slice (String.ofList cs) (byteCount (cs.take a)) (byteCount (cs.take b)) =
      some (String.ofList ((cs.take b).drop a)) := by
  have hfront : (cs.take b).take a = cs.take a := by rw [List.take_take, Nat.min_eq_left h]
  have hsplit : cs.take b = cs.take a ++ (cs.take b).drop a := by
    rw [← hfront, List.take_append_drop]
  have happend := slice_append (.ofList (cs.take a)) (.ofList ((cs.take b).drop a))
    (.ofList (cs.drop b))
  rwa [← String.ofList_append, ← hsplit, ← String.ofList_append, List.take_append_drop,
    ← String.utf8ByteSize_append, ← String.ofList_append, ← hsplit, utf8ByteSize_ofList,
    utf8ByteSize_ofList] at happend

theorem slice_drop : slice (String.ofList cs) (byteCount (cs.take a)) (byteCount cs) =
    some (String.ofList (cs.drop a)) := by
  have hslice := @slice_take cs a (max a cs.length) (Nat.le_max_left ..)
  rwa [List.take_of_length_le (Nat.le_max_right ..)] at hslice

theorem charIndices_append (start : Nat) (xs ys : List Char) :
    charIndices start (xs ++ ys) =
      charIndices start xs ++ charIndices (start + byteCount xs) ys := by
  induction xs generalizing start with
  | nil => rfl
  | cons ch xs ih =>
    simp only [List.cons_append, charIndices, ih, byteCount, Nat.add_assoc]

theorem getElem?_charIndices (start n : Nat) (cs : List Char) :
    (charIndices start cs)[n]? = cs[n]?.map fun ch => (start + byteCount (cs.take n), ch) := by
  induction cs generalizing start n with
  | nil => rfl
  | cons ch cs ih =>
    cases n with
    | zero => rfl
    | succ n => simp [charIndices, ih, byteCount, Nat.add_assoc]

theorem length_charIndices (start : Nat) (cs : List Char) :
    (charIndices start cs).length = cs.length := by
  induction cs generalizing start with
  | nil => rfl
  | cons ch cs ih => rw [charIndices, List.length_cons, ih, List.length_cons]

theorem nthBoundary_ofList (n : Nat) :
    nthBoundary (String.ofList cs) n = byteCount (cs.take n) := by
  rw [nthBoundary, String.toList_ofList, getElem?_charIndices, utf8ByteSize_ofList]
  rcases Nat.lt_or_ge n cs.length with hlt | hge
  · rw [List.getElem?_eq_getElem hlt]
    exact Nat.zero_add _
  · rw [List.getElem?_eq_none hge, List.take_of_length_le hge]
    rfl

theorem find?_eq (delimiter cs : List Char) : find? delimiter cs =
    ((List.range (cs.length + 1)).find? fun m => delimiter <+: cs.drop m).map
      fun m => byteCount (cs.take m) := by
  induction cs with
  | nil => cases delimiter <;> simp [find?, List.range_succ, byteCount]
  | cons ch cs ih =>
    rw [find?, List.length_cons, List.range_succ_eq_map, List.find?_cons]
    by_cases hhere : delimiter <+: ch :: cs
    · simp [hhere, byteCount]
    · simp only [List.isPrefixOf_iff_prefix, hhere, if_false, List.drop_zero, decide_false]
      rw [ih, List.find?_map, Option.map_map, Option.map_map]
      congr 1
      funext m
      simp only [Function.comp, Nat.succ_eq_add_one, List.take_succ_cons, byteCount, Nat.add_comm]

/-- Behind the last newline stand as many characters as the column counts. -/
theorem lineStart_ofList (cs : List Char) : lineStart (String.ofList cs) =
    byteCount (cs.take (cs.length - Cursor.columnAfter cs.reverse)) := by
  induction cs using List.reverseRecOn with
  | nil => rfl
  | append_singleton cs ch ih =>
    rw [lineStart, String.toList_ofList] at ih ⊢
    rw [charIndices_append, List.reverse_append, charIndices, charIndices, List.reverse_singleton,
      List.singleton_append, List.find?_cons, Cursor.columnAfter, List.reverse_append,
      List.reverse_singleton, List.singleton_append, List.takeWhile_cons]
    by_cases hnewline : ch = '\n'
    · subst hnewline
      have hsize : byteCount ['\n'] = 1 := rfl
      have hall : (cs ++ ['\n']).take (cs.length + 1) = cs ++ ['\n'] :=
        List.take_of_length_le (by simp)
      simp [hall, hsize]
    · have hshorter :
          cs.length + 1 - ((cs.reverse.takeWhile (· ≠ '\n')).length + 1) ≤ cs.length := by
        omega
      simp only [hnewline, decide_false, ih, ne_eq, not_false_eq_true, decide_true, if_true,
        List.length_append, List.length_cons, List.length_nil, Nat.zero_add]
      rw [List.take_append_of_le_length hshorter, Nat.add_sub_add_right]
      rfl

theorem ofIndex_min (index : Nat) :
    Offset.ofIndex cs (min index (byteCount cs)) = Offset.ofIndex cs index := by
  simp only [Offset.ofIndex, Nat.min_assoc, Nat.min_self]

theorem byteCount_take_lt (h : k < cs.length) :
    byteCount (cs.take k) < byteCount (cs.take (k + 1)) := by
  have hpos := cs[k].utf8Size_pos
  rw [List.take_succ_eq_append_getElem h, byteCount_append, byteCount, byteCount]
  omega

theorem byteCount_take_le_iff {m : Nat} (hk : k ≤ cs.length) :
    byteCount (cs.take k) ≤ byteCount (cs.take m) ↔ k ≤ m := by
  refine ⟨fun hle => Nat.le_of_not_lt fun hlt => ?_, Cursor.byteCount_take_le⟩
  have hless := @byteCount_take_lt cs m (Nat.lt_of_lt_of_le hlt hk)
  have hmono : byteCount (cs.take (m + 1)) ≤ byteCount (cs.take k) := Cursor.byteCount_take_le hlt
  omega

theorem ofIndex_byteCount_take (h : k ≤ cs.length) :
    Offset.ofIndex cs (byteCount (cs.take k)) = k :=
  Cursor.ofIndex_eq h (Nat.le_refl _) byteCount_take_lt

theorem ofIndex_spec (index : Nat) : Offset.ofIndex cs index ≤ cs.length ∧
    byteCount (cs.take (Offset.ofIndex cs index)) ≤ index ∧
      (Offset.ofIndex cs index < cs.length →
        index < byteCount (cs.take (Offset.ofIndex cs index + 1))) := by
  refine ⟨Nat.findGreatest_le _, ?_, fun hlt => ?_⟩
  · have hspec := Nat.findGreatest_spec (P := fun k =>
      byteCount (cs.take k) ≤ min index (byteCount cs)) (Nat.zero_le cs.length) (Nat.zero_le _)
    exact Nat.le_trans hspec (Nat.min_le_left _ _)
  · have hgreatest := Nat.findGreatest_is_greatest (P := fun k =>
      byteCount (cs.take k) ≤ min index (byteCount cs)) (Nat.lt_succ_self _) hlt
    have hall := @Cursor.byteCount_take_le_byteCount cs (Offset.ofIndex cs index + 1)
    exact Nat.lt_of_not_le fun hle => hgreatest (Nat.le_min.2 ⟨hle, hall⟩)

theorem floorBoundary_ofList (index : Nat) :
    floorBoundary (String.ofList cs) index = byteCount (cs.take (Offset.ofIndex cs index)) := by
  induction index with
  | zero =>
    obtain ⟨-, hle, -⟩ := @ofIndex_spec cs 0
    exact (Nat.le_zero.1 hle).symm
  | succ index ih =>
    rw [floorBoundary]
    split
    · next hboundary =>
      obtain ⟨k, hk, hindex⟩ := isBoundary_iff.1 hboundary
      rw [hindex, ofIndex_byteCount_take hk]
    · next hinside =>
      obtain ⟨hlen, hle, hlt⟩ := @ofIndex_spec cs index
      have hsame : Offset.ofIndex cs (index + 1) = Offset.ofIndex cs index := by
        refine Cursor.ofIndex_eq hlen (Nat.le_succ_of_le hle) fun hmore => ?_
        refine Nat.lt_of_le_of_ne (hlt hmore) fun heq => ?_
        exact hinside (isBoundary_iff.2 ⟨_, hmore, heq⟩)
      rw [ih, hsame]

end Bytes

namespace ByteCursor

open Bytes

/-- The answer to a call, and the cursor after it. Without an answer something is out of place. -/
def call (past : List ByteCursor) (c : ByteCursor) : CursorCall → Option (CursorAnswer × ByteCursor)
  | .next => c.next.map fun (ch, d) => (.character ch, d)
  | .consume cs => (c.consume (.ofList cs)).map fun (found, d) => (.flag found, d)
  | .moveTo index => (c.set index).map fun d => (.nothing, d)
  | .jumpPast delimiter => (c.jumpPast (.ofList delimiter)).map fun (found, d) => (.flag found, d)
  | .jumpBy offset => (c.jumpBy offset).map fun d => (.nothing, d)
  | .jumpWhile p => (jumpWhile p (c.text.utf8ByteSize + 1) c).map fun d => (.nothing, d)
  | .reload n => some (.nothing, past.getD n c)
  | .hasNext => some (.flag c.hasNext, c)
  | .current => c.current.map fun ch => (.character ch, c)
  | .peek len => (c.peek len).map fun s => (.characters s.toList, c)
  | .get len offset => (c.get len offset).map fun s => (.characters s.toList, c)
  | .isAt cs => (c.isAt (.ofList cs)).map fun found => (.flag found, c)
  | .remainder => c.remainder.map fun s => (.characters s.toList, c)
  | .sliceFrom n => (c.sliceFrom (past.getD n c).index).map fun s => (.characters s.toList, c)

def run (past : List ByteCursor) (c : ByteCursor) :
    List CursorCall → Option (List (CursorAnswer × Position))
  | [] => some []
  | call :: calls => do
    let (answer, d) ← c.call past call
    let answers ← d.run (c :: past) calls
    return (answer, d.position) :: answers

/-- The cursor with `k` characters before it. -/
def atOffset (text : List Char) (k : Nat) : ByteCursor := ⟨.ofList text, Offset.position text k⟩

variable {text cs : List Char} {k m : Nat}

theorem index_atOffset : (atOffset text k).index = byteCount (text.take k) := rfl

theorem position_eq_along : Offset.position text k = Position.start.along (text.take k) := by
  rw [← Cursor.position_atOffset, Cursor.isPlaced_atOffset, Cursor.back_atOffset,
    List.reverse_reverse]

theorem foldl_step (c : ByteCursor) (cs : List Char) :
    cs.foldl step c = { c with position := c.position.along cs } := by
  induction cs generalizing c with
  | nil => rfl
  | cons ch cs ih => rw [List.foldl_cons, ih, step, Position.along_cons]

/-- Stepping over what stands between two places leads from one to the other. -/
theorem foldl_step_atOffset (h : k ≤ m) :
    ((text.take m).drop k).foldl step (atOffset text k) = atOffset text m := by
  have hfront : (text.take m).take k = text.take k := by rw [List.take_take, Nat.min_eq_left h]
  have halong : (Offset.position text k).along ((text.take m).drop k) = Offset.position text m := by
    rw [position_eq_along, position_eq_along, ← Position.along_append, ← hfront,
      List.take_append_drop]
  rw [foldl_step]
  exact congrArg (ByteCursor.mk _) halong

theorem step_atOffset (h : k < text.length) :
    (atOffset text k).step text[k] = atOffset text (k + 1) := by
  have hone : (text.take (k + 1)).drop k = [text[k]] := by
    rw [List.take_succ_eq_append_getElem h, List.drop_append_of_le_length (by simp; omega)]
    simp
  rw [← foldl_step_atOffset (Nat.le_succ k), hone, List.foldl_cons, List.foldl_nil]

theorem utf8ByteSize_text : (atOffset text k).text.utf8ByteSize = byteCount text :=
  utf8ByteSize_ofList text

theorem remainder_atOffset : (atOffset text k).remainder = some (.ofList (text.drop k)) := by
  rw [remainder, utf8ByteSize_text]
  exact slice_drop

theorem set_ahead (h : k ≤ m) : slice (.ofList text) (byteCount (text.take k))
    (byteCount (text.take m)) >>= (fun skipped =>
      some (skipped.toList.foldl step (atOffset text k))) =
      some (atOffset text m) := by
  rw [slice_take h]
  simp only [Option.bind_eq_bind, Option.bind_some, String.toList_ofList, foldl_step_atOffset h]

theorem position_rewound (h : m ≤ k) :
    (⟨byteCount (text.take m), (Offset.position text k).line - ((text.take k).drop m).count '\n',
      Cursor.columnAfter (text.take m).reverse⟩ : Position) = Offset.position text m := by
  have hfront : (text.take k).take m = text.take m := by rw [List.take_take, Nat.min_eq_left h]
  have hcount : (text.take m).count '\n' + ((text.take k).drop m).count '\n' =
      (text.take k).count '\n' := by
    rw [← hfront, ← List.count_append, List.take_append_drop]
  simp only [Offset.position, ← hcount, Nat.add_sub_cancel]
  rfl

theorem lineStart_take (hm : m ≤ text.length) : lineStart (.ofList (text.take m)) =
    byteCount (text.take (m - Cursor.columnAfter (text.take m).reverse)) := by
  rw [lineStart_ofList, List.length_take_of_le hm, List.take_take, Nat.min_eq_left (Nat.sub_le ..)]

theorem length_line (hm : m ≤ text.length) :
    ((text.take m).drop (m - Cursor.columnAfter (text.take m).reverse)).length =
      Cursor.columnAfter (text.take m).reverse := by
  have hlength : (text.take m).length = m := List.length_take_of_le hm
  have htake : Cursor.columnAfter (text.take m).reverse ≤ (text.take m).reverse.length :=
    (List.takeWhile_prefix _).length_le
  rw [List.length_reverse, hlength] at htake
  rw [List.length_drop, hlength]
  exact Nat.sub_sub_self htake

theorem set_atOffset (hk : k ≤ text.length) (index : Nat) :
    (atOffset text k).set index = some (atOffset text (Offset.ofIndex text index)) := by
  obtain ⟨hm, -, -⟩ := @ofIndex_spec text index
  have htarget : floorBoundary (atOffset text k).text
      (min index (atOffset text k).text.utf8ByteSize) =
        byteCount (text.take (Offset.ofIndex text index)) := by
    rw [utf8ByteSize_text, atOffset, floorBoundary_ofList, ofIndex_min]
  rw [set, htarget, index_atOffset]
  generalize Offset.ofIndex text index = m at hm
  dsimp only
  split
  · next hahead => exact set_ahead ((byteCount_take_le_iff hk).1 hahead)
  · next hbehind =>
    have hle : m ≤ k := Nat.le_of_not_le fun hle => hbehind (Cursor.byteCount_take_le hle)
    have hbefore : slice (.ofList text) 0 (byteCount (text.take m)) =
        some (.ofList (text.take m)) := @slice_take text 0 m (Nat.zero_le m)
    have hline : slice (.ofList text) (byteCount (text.take (m -
        Cursor.columnAfter (text.take m).reverse))) (byteCount (text.take m)) =
          some (.ofList ((text.take m).drop (m - Cursor.columnAfter (text.take m).reverse))) :=
      slice_take (Nat.sub_le ..)
    have hnewlines : ¬(Offset.position text k).line < ((text.take k).drop m).count '\n' :=
      Nat.not_lt.2 (List.Sublist.count_le _ (List.drop_sublist _ _))
    simp only [atOffset, slice_take hle, hbefore, lineStart_take hm, hline, Option.bind_eq_bind,
      Option.bind_some, String.toList_ofList, if_neg hnewlines, length_line hm]
    exact congrArg (fun p => some (ByteCursor.mk _ p)) (position_rewound hle)

theorem current_atOffset : (atOffset text k).current = some text[k]? := by
  rw [current, remainder_atOffset, Option.map_some, String.toList_ofList, List.head?_drop]

theorem next_atOffset (hk : k ≤ text.length) :
    (atOffset text k).next = some (text[k]?, atOffset text (min (k + 1) text.length)) := by
  rw [next, current_atOffset]
  rcases Nat.lt_or_ge k text.length with hlt | hge
  · rw [List.getElem?_eq_getElem hlt, Nat.min_eq_left hlt, ← step_atOffset hlt]
    rfl
  · rw [List.getElem?_eq_none hge, Nat.min_eq_right (Nat.le_succ_of_le hge),
      Nat.le_antisymm hge hk]
    rfl

theorem get_atOffset (len offset : Nat) : (atOffset text k).get len offset =
    some (.ofList ((text.drop (k + offset)).take len)) := by
  have hstop : byteCount ((text.drop k).take offset) +
      byteCount (((text.drop k).drop offset).take len) =
        byteCount ((text.drop k).take (offset + len)) := by
    rw [List.take_add, byteCount_append]
  have hslice := @slice_take (text.drop k) offset (offset + len) (Nat.le_add_right ..)
  rw [List.drop_take, Nat.add_sub_cancel_left, List.drop_drop] at hslice
  simp only [get, remainder_atOffset, Option.bind_eq_bind, Option.bind_some, nthBoundary_ofList,
    utf8ByteSize_ofList, slice_drop, hstop, hslice]

theorem isAt_atOffset :
    (atOffset text k).isAt (.ofList cs) = some (decide (cs <+: text.drop k)) := by
  rw [isAt, remainder_atOffset, Option.map_some, String.toList_ofList, String.toList_ofList]
  refine congrArg some ?_
  rw [Bool.eq_iff_iff, List.isPrefixOf_iff_prefix, decide_eq_true_eq]

theorem consume_atOffset : (atOffset text k).consume (.ofList cs) =
    some (if cs <+: text.drop k then (true, atOffset text (k + cs.length))
      else (false, atOffset text k)) := by
  rw [consume, isAt_atOffset, Option.map_some]
  by_cases hstands : cs <+: text.drop k
  · have hcs : (text.take (k + cs.length)).drop k = cs := by
      rw [List.drop_take, Nat.add_sub_cancel_left]
      exact (List.prefix_iff_eq_take.1 hstands).symm
    have hfold := @foldl_step_atOffset text k (k + cs.length) (Nat.le_add_right ..)
    rw [hcs] at hfold
    simp only [hstands, decide_true, if_true, String.toList_ofList, hfold]
  · simp only [hstands, decide_false, if_false, Bool.false_eq_true]

theorem set_byteCount (hk : k ≤ text.length) (hm : m ≤ text.length) :
    (atOffset text k).set (byteCount (text.take m)) = some (atOffset text m) := by
  rw [set_atOffset hk, ofIndex_byteCount_take hm]

theorem jumpPast_atOffset (hk : k ≤ text.length) (delimiter : List Char) :
    (atOffset text k).jumpPast (.ofList delimiter) =
      some (match Offset.find? text k delimiter with
        | some m => (true, atOffset text (m + delimiter.length))
        | none => (false, atOffset text text.length)) := by
  rw [jumpPast, remainder_atOffset, Cursor.find?_eq hk]
  simp only [Option.bind_eq_bind, Option.bind_some, String.toList_ofList, find?_eq]
  cases hfind : (List.range ((text.drop k).length + 1)).find? fun m =>
    delimiter <+: (text.drop k).drop m with
  | none =>
    have hend := @set_byteCount text k text.length hk (Nat.le_refl _)
    rw [List.take_length, ← @utf8ByteSize_text text k] at hend
    simp only [Option.map_none, hend, Option.bind_some]
    rfl
  | some m =>
    have hstands : delimiter <+: text.drop (k + m) := by
      have hfound := List.find?_some hfind
      rw [← List.drop_drop]
      exact of_decide_eq_true hfound
    have hm := List.mem_range.1 (List.mem_of_find?_eq_some hfind)
    have hlength := hstands.length_le
    rw [List.length_drop] at hm hlength
    have htaken : (text.drop (k + m)).take delimiter.length = delimiter :=
      (List.prefix_iff_eq_take.1 hstands).symm
    have hbytes : (atOffset text k).index + byteCount ((text.drop k).take m) +
        (String.ofList delimiter).utf8ByteSize =
          byteCount (text.take (k + m + delimiter.length)) := by
      rw [index_atOffset, utf8ByteSize_ofList, List.take_add, List.take_add, htaken,
        byteCount_append, byteCount_append]
    have hpast := @set_byteCount text k (k + m + delimiter.length) hk (by omega)
    simp only [Option.map_some, hbytes, hpast, Option.bind_some]
    rfl

theorem length_le_byteCount (cs : List Char) : cs.length ≤ byteCount cs := by
  induction cs with
  | nil => exact Nat.le_refl 0
  | cons ch cs ih =>
    have hpos := ch.utf8Size_pos
    rw [List.length_cons, byteCount]
    omega

theorem jumpWhile_atOffset (hk : k ≤ text.length) (p : Char → Bool) {fuel : Nat}
    (hfuel : text.length - k < fuel) : jumpWhile p fuel (atOffset text k) =
      some (atOffset text (k + ((text.drop k).takeWhile p).length)) := by
  induction fuel generalizing k with
  | zero => exact absurd hfuel (Nat.not_lt_zero _)
  | succ fuel ih =>
    rw [jumpWhile, current_atOffset]
    rcases Nat.lt_or_ge k text.length with hlt | hge
    · rw [List.getElem?_eq_getElem hlt, List.drop_eq_getElem_cons hlt, List.takeWhile_cons]
      simp only [Option.bind_eq_bind, Option.bind_some]
      split
      · rw [step_atOffset hlt, @ih (k + 1) hlt (by omega), List.length_cons, Nat.add_assoc,
          Nat.add_comm 1]
      · rfl
    · rw [List.getElem?_eq_none hge, List.drop_eq_nil_of_le hge]
      rfl

/-- The place some characters back, found from the last character before `k`. -/
theorem elim_charIndices_back {n : Nat} (hn : 0 < n) (hk : k ≤ text.length) :
    (charIndices 0 (text.take k)).reverse[n - 1]?.elim 0 Prod.fst =
      byteCount (text.take (k - n)) := by
  have hlength : (text.take k).length = k := List.length_take_of_le hk
  rcases Nat.lt_or_ge k n with hshort | henough
  · have hnone : (charIndices 0 (text.take k)).reverse.length ≤ n - 1 := by
      rw [List.length_reverse, length_charIndices, hlength]
      omega
    rw [List.getElem?_eq_none hnone, Nat.sub_eq_zero_of_le (Nat.le_of_lt hshort)]
    rfl
  · have hless : n - 1 < (charIndices 0 (text.take k)).length := by
      rw [length_charIndices, hlength]
      omega
    have hindex : k - 1 - (n - 1) = k - n := by omega
    have hinside : k - n < (text.take k).length := by omega
    rw [List.getElem?_reverse hless, length_charIndices, hlength, hindex, getElem?_charIndices,
      List.getElem?_eq_getElem hinside, List.take_take, Nat.min_eq_left (Nat.sub_le ..)]
    exact Nat.zero_add _

theorem jumpBy_atOffset (hk : k ≤ text.length) (offset : Int) :
    (atOffset text k).jumpBy offset =
      some (atOffset text (max 0 (min (k + offset) text.length)).toNat) := by
  rw [jumpBy]
  split
  · next hahead =>
    have hbytes : (atOffset text k).index +
        nthBoundary (.ofList (text.drop k)) offset.natAbs =
          byteCount (text.take (min (k + offset.natAbs) text.length)) := by
      rw [index_atOffset, nthBoundary_ofList, ← byteCount_append, ← List.take_add,
        ← List.take_eq_take_min]
    have hset := @set_byteCount text k (min (k + offset.natAbs) text.length) hk
      (Nat.min_le_right ..)
    have hoffset : min (k + offset.natAbs) text.length =
        (max 0 (min (k + offset) text.length)).toNat := by omega
    rw [remainder_atOffset]
    simp only [Option.bind_eq_bind, Option.bind_some, hbytes, hset]
    rw [hoffset]
  · next hbehind =>
    have hbefore : slice (atOffset text k).text 0 (atOffset text k).index =
        some (.ofList (text.take k)) := @slice_take text 0 k (Nat.zero_le k)
    have hback : 0 < offset.natAbs := by omega
    have hset := @set_byteCount text k (k - offset.natAbs) hk (by omega)
    have hoffset : k - offset.natAbs = (max 0 (min (k + offset) text.length)).toNat := by omega
    rw [hbefore]
    simp only [Option.bind_eq_bind, Option.bind_some, String.toList_ofList,
      elim_charIndices_back hback hk, hset]
    rw [hoffset]

theorem sliceFrom_atOffset (m : Nat) : (atOffset text k).sliceFrom (atOffset text m).index =
    some (.ofList ((text.take k).drop m)) := by
  have hmin : min (byteCount (text.take m)) (byteCount (text.take k)) =
      byteCount (text.take (min m k)) := by
    rcases Nat.le_total m k with hle | hle
    · rw [Nat.min_eq_left hle, Nat.min_eq_left (Cursor.byteCount_take_le hle)]
    · rw [Nat.min_eq_right hle, Nat.min_eq_right (Cursor.byteCount_take_le hle)]
  have hdrop : (text.take k).drop (min m k) = (text.take k).drop m := by
    rcases Nat.le_total m k with hle | hle
    · rw [Nat.min_eq_left hle]
    · rw [Nat.min_eq_right hle, List.drop_eq_nil_of_le (List.length_take_le ..),
        List.drop_eq_nil_of_le (Nat.le_trans (List.length_take_le ..) hle)]
  rw [sliceFrom, index_atOffset, index_atOffset, hmin, ← hdrop]
  exact slice_take (Nat.min_le_right ..)

theorem getD_map_atOffset (past : List Nat) (n : Nat) :
    (past.map (atOffset text)).getD n (atOffset text k) = atOffset text (past.getD n k) := by
  simp only [List.getD_eq_getElem?_getD, List.getElem?_map, Option.getD_map]

/-- A call answers as one with an offset does, and moves as it does. -/
theorem call_atOffset (past : List Nat) (hk : k ≤ text.length) (c : CursorCall) :
    (atOffset text k).call (past.map (atOffset text)) c =
      some ((Offset.call text past k c).1, atOffset text (Offset.call text past k c).2) := by
  cases c with
  | next => rw [call, next_atOffset hk]; rfl
  | consume cs =>
    rw [call, consume_atOffset, Offset.call]
    split <;> rfl
  | moveTo index => rw [call, set_atOffset hk]; rfl
  | jumpPast delimiter =>
    rw [call, jumpPast_atOffset hk, Offset.call]
    cases Offset.find? text k delimiter <;> rfl
  | jumpBy offset => rw [call, jumpBy_atOffset hk]; rfl
  | jumpWhile p =>
    have hlength := length_le_byteCount text
    rw [call, utf8ByteSize_text, jumpWhile_atOffset hk p (by omega)]
    rfl
  | reload n => rw [call, getD_map_atOffset]; rfl
  | hasNext =>
    have hflag : (atOffset text k).hasNext = decide (k < text.length) := by
      have hend := @byteCount_take_le_iff text text.length k (Nat.le_refl _)
      rw [List.take_length] at hend
      rw [hasNext, utf8ByteSize_text, index_atOffset, decide_eq_decide, ← Nat.not_le, hend,
        Nat.not_le]
    rw [call, hflag]
    rfl
  | current => rw [call, current_atOffset]; rfl
  | peek len => rw [call, peek, get_atOffset, Option.map_some, String.toList_ofList]; rfl
  | get len offset => rw [call, get_atOffset, Option.map_some, String.toList_ofList]; rfl
  | isAt cs => rw [call, isAt_atOffset]; rfl
  | remainder => rw [call, remainder_atOffset, Option.map_some, String.toList_ofList]; rfl
  | sliceFrom n =>
    rw [call, getD_map_atOffset, sliceFrom_atOffset, Option.map_some, String.toList_ofList]
    rfl

theorem run_atOffset {past : List Nat} (hk : k ≤ text.length)
    (hpast : ∀ m ∈ past, m ≤ text.length) (calls : List CursorCall) :
    (atOffset text k).run (past.map (atOffset text)) calls = some ((Offset.run text past k calls).map
      fun (answer, k) => (answer, Offset.position text k)) := by
  induction calls generalizing past k with
  | nil => rfl
  | cons c calls ih =>
    have hlength := Cursor.call_le_length hk hpast c
    have hrest := ih hlength (List.forall_mem_cons.2 ⟨hk, hpast⟩)
    rw [List.map_cons] at hrest
    rw [run, call_atOffset past hk c]
    simp only [Option.bind_eq_bind, Option.bind_some, hrest]
    rfl

/-- A cursor that counts bytes, in a text of bytes, and one that keeps the characters on both sides
are the same number of characters: whatever is asked of them, no slice is out of place, and their
answers and places are those of the offset that moves along, which stays within the text. -/
theorem run_eq_offsets (text : String) (calls : List CursorCall) :
    (ofString text).run [] calls = some ((Offset.run text.toList [] 0 calls).map
        fun (answer, k) => (answer, Offset.position text.toList k)) ∧
      (Cursor.ofString text).run [] calls = (Offset.run text.toList [] 0 calls).map
        (fun (answer, k) => (answer, Offset.position text.toList k)) ∧
      ∀ step ∈ Offset.run text.toList [] 0 calls, step.2 ≤ text.toList.length := by
  refine ⟨?_, Cursor.run_ofString text calls⟩
  have hrun := @run_atOffset text.toList 0 [] (Nat.zero_le _) nofun calls
  have hstart : atOffset text.toList 0 = ofString text := by
    rw [atOffset, String.ofList_toList]
    rfl
  rwa [hstart] at hrun

end ByteCursor

end Ebnf
