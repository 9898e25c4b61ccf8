import Ebnf.Proofs.Reading.Derives
import Ebnf.Proofs.Walks

/-! Where pieces stand in the texts of a node. A piece that is part of a derivation has some of the
text before it and some behind it. These surroundings are found from the root down, and the
characters that a node starts with or is followed by are read off them. -/

namespace Ebnf

/-- `Around g root piece before behind`: in a derivation of the root the text of the piece stands
between these two. -/
inductive Around (g : Grammar) (root : NodeId) : Piece → List Char → List Char → Prop
  | top : Around g root (.whole root) [] []
  | times {id count : Nat} {before behind : List Char} : Around g root (.whole id) before behind →
      (g.graph.node id).repetition.admits count = true →
      Around g root (.times id count) before behind
  | first {id count : Nat} {before rest behind : List Char} :
      Around g root (.times id (count + 1)) before behind → Derives g (.times id count) rest 0 →
      Around g root (.once id) before (rest ++ behind)
  | later {id count : Nat} {before text behind : List Char} :
      Around g root (.times id (count + 1)) before behind → Derives g (.once id) text 0 →
      Around g root (.times id count) (before ++ text) behind
  | reference {id target : Nat} {rule : String} {link : Option NodeId} {before behind : List Char} :
      Around g root (.once id) before behind → (g.graph.node id).kind = .reference rule link →
      g.rules.lookup rule = some target → Around g root (.once target) before behind
  | group {id : Nat} {children : List NodeId} {before behind : List Char} :
      Around g root (.once id) before behind → (g.graph.node id).kind = .group children →
      Around g root (.inTurn children) before behind
  | rule {id : Nat} {name : String} {children : List NodeId} {before behind : List Char} :
      Around g root (.once id) before behind → (g.graph.node id).kind = .rule name children →
      Around g root (.inTurn children) before behind
  | option {id option : Nat} {options : List NodeId} {weights escapes : Distribution}
      {before behind : List Char} : Around g root (.once id) before behind →
      (g.graph.node id).kind = .choice options weights escapes → option ∈ options →
      Around g root (.whole option) before behind
  | head {id : Nat} {ids : List NodeId} {before rest behind : List Char} :
      Around g root (.inTurn (id :: ids)) before behind → Derives g (.inTurn ids) rest 0 →
      Around g root (.whole id) before (rest ++ behind)
  | tail {id : Nat} {ids : List NodeId} {before text behind : List Char} :
      Around g root (.inTurn (id :: ids)) before behind → Derives g (.whole id) text 0 →
      Around g root (.inTurn ids) (before ++ text) behind

namespace Grammar

def Starts (g : Grammar) (piece : Piece) (c : Char) : Prop := ∃ rest, Derives g piece (c :: rest) 0

/-- In some derivation of the root, the character directly follows what a node with all its
occurrences stands for. -/
def FollowedBy (g : Grammar) (root id : NodeId) (c : Char) : Prop :=
  ∃ before text behind, Around g root (.whole id) before (c :: behind) ∧
    Derives g (.whole id) text 0

end Grammar

def Piece.On (P : NodeId → Prop) : Piece → Prop
  | once id | times id _ | whole id => P id
  | inTurn ids => ∀ id ∈ ids, P id

namespace Around

variable {g : Grammar} {root id : NodeId} {piece : Piece} {before behind text : List Char}

theorem derives (h : Around g root piece before behind) (ht : Derives g piece text 0) :
    Derives g (.whole root) (before ++ text ++ behind) 0 := by
  induction h generalizing text with
  | top => simpa using ht
  | times _ hcount ih => exact ih (.whole hcount ht)
  | first _ hrest ih => simpa using ih (.oneMore ht hrest)
  | later _ hfirst ih => simpa using ih (.oneMore hfirst ht)
  | reference _ hk hroot ih => exact ih (.reference hk hroot ht)
  | group _ hk ih => exact ih (.group hk ht)
  | rule _ hk ih => exact ih (.rule hk ht)
  | option _ hk hoption ih => exact ih (.option hk hoption ht)
  | head _ hrest ih => simpa using ih (.onward ht hrest)
  | tail _ hfirst ih => simpa using ih (.onward hfirst ht)

theorem reachable (h : Around g root piece before behind) : piece.On (g.Reachable root) := by
  induction h with
  | top => exact .refl
  | times _ _ ih | first _ _ ih | later _ _ ih => exact ih
  | reference _ hk hroot ih => exact ih.tail (.reference hk hroot)
  | group _ hk ih | rule _ hk ih => exact fun c hc => ih.tail (.child (by rw [hk]; exact hc))
  | option _ hk hoption ih => exact ih.tail (.child (by rw [hk]; exact hoption))
  | head _ _ ih => exact ih _ List.mem_cons_self
  | tail _ _ ih => exact fun c hc => ih c (List.mem_cons_of_mem _ hc)

theorem split_times {count : Nat} (h : Around g root (.times id (count + 1)) before behind)
    (ht : Derives g (.times id (count + 1)) text 0) : ∃ first rest, text = first ++ rest ∧
      Around g root (.once id) before (rest ++ behind) ∧ Derives g (.once id) first 0 ∧
        Around g root (.times id count) (before ++ first) behind ∧
          Derives g (.times id count) rest 0 := by
  obtain ⟨first, rest, htext, hfirst, hrest⟩ := ht.times_succ_inv
  exact ⟨first, rest, htext, h.first hrest, hfirst, h.later hfirst, hrest⟩

theorem split_inTurn {ids : List NodeId} (h : Around g root (.inTurn (id :: ids)) before behind)
    (ht : Derives g (.inTurn (id :: ids)) text 0) : ∃ first rest, text = first ++ rest ∧
      Around g root (.whole id) before (rest ++ behind) ∧ Derives g (.whole id) first 0 ∧
        Around g root (.inTurn ids) (before ++ first) behind ∧ Derives g (.inTurn ids) rest 0 := by
  obtain ⟨first, rest, htext, hfirst, hrest⟩ := ht.inTurn_cons_inv
  exact ⟨first, rest, htext, h.head hrest, hfirst, h.tail hfirst, hrest⟩

theorem whole_of_times {count : Nat} (h : Around g root (.times id count) before behind)
    (ht : Derives g (.times id count) text 0) :
    ∃ before' text' all, Around g root (.whole id) before' behind ∧ count ≤ all ∧
      (g.graph.node id).repetition.admits all = true ∧ Derives g (.times id all) text' 0 := by
  generalize hpiece : Piece.times id count = piece at h
  induction h generalizing count text with
  | times hwhole hall =>
    cases hpiece
    exact ⟨_, text, _, hwhole, Nat.le_refl _, hall, ht⟩
  | later _ hfirst ih =>
    cases hpiece
    obtain ⟨before', text', all, hwhole, hle, hall, hderives⟩ := ih (.oneMore hfirst ht) rfl
    exact ⟨before', text', all, hwhole, by omega, hall, hderives⟩
  | _ => cases hpiece

theorem followedBy_of_times {count : Nat} {c : Char}
    (h : Around g root (.times id count) before (c :: behind))
    (ht : Derives g (.times id count) text 0) : g.FollowedBy root id c := by
  obtain ⟨before', text', all, hwhole, -, hall, hderives⟩ := h.whole_of_times ht
  exact ⟨before', text', behind, hwhole, .whole hall hderives⟩

theorem whole_of_once (hg : g.IsLinked) (h : Around g root (.once id) before behind)
    (honce : (g.graph.node id).repetition = .once)
    (hrule : ∀ name children, (g.graph.node id).kind ≠ .rule name children) :
    Around g root (.whole id) before behind := by
  cases h with
  | @first _ count _ rest behind htimes hrest =>
    cases htimes with
    | times hwhole hcount =>
      rw [honce, Repetition.admits_iff] at hcount
      obtain rfl : count = 0 := by
        have hle := hcount.2 1 rfl
        omega
      rw [hrest.times_zero_inv]
      exact hwhole
    | later htwo hfirst =>
      obtain ⟨_, _, all, -, hle, hall, -⟩ :=
        htwo.whole_of_times (.oneMore hfirst (.oneMore hfirst hrest))
      rw [honce, Repetition.admits_iff] at hall
      have hmax := hall.2 1 rfl
      omega
  | reference _ hk hroot =>
    obtain ⟨-, -, children, hroot⟩ := hg.root hroot
    exact absurd hroot (hrule _ _)

end Around

end Ebnf
