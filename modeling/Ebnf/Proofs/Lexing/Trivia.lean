import Ebnf.Token.Scan
import Mathlib.Data.List.Infix

/-! Trivia by its parts: white space, line comments up to their line break or the end of the
source, and block comments up to the first mark that closes them. The reader of trivia takes as
much of it as there is. -/

namespace Ebnf

/-- Characters that are trivia when `rest` lies behind them. -/
inductive Trivia : List Char → List Char → Prop
  | nil {rest : List Char} : Trivia [] rest
  | space {c : Char} {cs rest : List Char} (h : isWhiteSpace c = true) :
      Trivia cs rest → Trivia (c :: cs) rest
  | line {body cs rest : List Char} (h : '\n' ∉ body) :
      Trivia cs rest → Trivia ('/' :: '/' :: (body ++ '\n' :: cs)) rest
  | lastLine {body : List Char} (h : '\n' ∉ body) : Trivia ('/' :: '/' :: body) []
  | block {body cs rest : List Char} (h : ¬ ['*', '/'] <:+: body) :
      Trivia cs rest → Trivia ('/' :: '*' :: (body ++ '*' :: '/' :: cs)) rest

/-- Whether trivia stands at the head of a text, or a block comment that is not closed. -/
def StartsTrivia : List Char → Prop
  | '/' :: d :: _ => d = '/' ∨ d = '*'
  | c :: _ => isWhiteSpace c = true
  | [] => False

-- `simp` steps both readers along characters that are known
attribute [simp] triviaEnd StartsTrivia

theorem startsTrivia_cons_cons {c d : Char} {cs : List Char} :
    StartsTrivia (c :: d :: cs) ↔ StartsTrivia [c, d] := by
  by_cases hslash : c = '/'
  · subst hslash
    rfl
  · rw [StartsTrivia.eq_2 _ _ (fun _ _ heq _ => hslash heq),
      StartsTrivia.eq_2 _ _ (fun _ _ heq _ => hslash heq)]

theorem startsTrivia_append_head? {c : Char} {cs rest : List Char} :
    StartsTrivia (c :: cs ++ rest.head?.toList) ↔ StartsTrivia (c :: cs ++ rest) := by
  match cs, rest with
  | d :: cs, rest => exact startsTrivia_cons_cons.trans startsTrivia_cons_cons.symm
  | [], [] => rfl
  | [], d :: rest => exact startsTrivia_cons_cons.trans startsTrivia_cons_cons.symm

theorem startsTrivia_of_isWhiteSpace {c : Char} {cs : List Char} (h : isWhiteSpace c = true) :
    StartsTrivia (c :: cs) := by
  have hslash : c ≠ '/' := fun heq => absurd (heq ▸ h) (by decide)
  rwa [StartsTrivia.eq_2 _ _ fun _ _ heq _ => hslash heq]

theorem startsTrivia_append {c : Char} {cs ds : List Char} {next : Option Char}
    (hnext : ∀ d ∈ next, isWhiteSpace d = true) (h : StartsTrivia (c :: cs ++ next.toList)) :
    StartsTrivia (c :: cs ++ ds) := by
  match cs, next with
  | d :: cs, _ => exact startsTrivia_cons_cons.2 (startsTrivia_cons_cons.1 h)
  | [], none =>
    have hsingle : StartsTrivia [c] := h
    rw [StartsTrivia.eq_2 c [] fun _ _ _ hnil => nomatch hnil] at hsingle
    exact startsTrivia_of_isWhiteSpace hsingle
  | [], some d =>
    by_cases hslash : c = '/'
    · subst hslash
      rcases h with rfl | rfl <;> exact absurd (hnext _ rfl) (by decide)
    · rw [List.singleton_append, StartsTrivia.eq_2 _ _ fun _ _ heq _ => hslash heq] at h
      exact startsTrivia_of_isWhiteSpace h

namespace Trivia

variable {cs ds rest : List Char}

theorem eq_nil (h : Trivia cs rest) (hstop : ¬ StartsTrivia (cs ++ rest)) : cs = [] := by
  cases h with
  | nil => rfl
  | space hspace _ => exact absurd (startsTrivia_of_isWhiteSpace hspace) hstop
  | line => exact absurd (.inl rfl) hstop
  | lastLine => exact absurd (.inl rfl) hstop
  | block => exact absurd (.inr rfl) hstop

theorem before_cons {c : Char} {rest' : List Char} (h : Trivia cs (c :: rest)) :
    Trivia cs rest' := by
  generalize hbehind : c :: rest = behind at h
  induction h with
  | nil => exact .nil
  | space hspace _ ih => exact .space hspace (ih hbehind)
  | line hbody _ ih => exact .line hbody (ih hbehind)
  | lastLine => cases hbehind
  | block hbody _ ih => exact .block hbody (ih hbehind)

theorem atEnd (h : Trivia cs rest) : Trivia cs [] := by
  induction h with
  | nil => exact .nil
  | space hspace _ ih => exact .space hspace ih
  | line hbody _ ih => exact .line hbody ih
  | lastLine hbody => exact .lastLine hbody
  | block hbody _ ih => exact .block hbody ih

theorem lineBreak (h : Trivia cs []) : Trivia (cs ++ ['\n']) rest := by
  have hbreak : Trivia ['\n'] rest := .space (by decide) .nil
  obtain ⟨behind, hbehind⟩ : ∃ behind, behind = ([] : List Char) := ⟨_, rfl⟩
  rw [← hbehind] at h
  induction h with
  | nil => exact hbreak
  | space hspace _ ih => exact .space hspace (ih hbehind)
  | @line body cs behind hbody _ ih =>
    rw [List.cons_append, List.cons_append, List.append_assoc, List.cons_append]
    exact .line hbody (ih hbehind)
  | lastLine hbody => exact .line hbody .nil
  | @block body cs behind hbody _ ih =>
    rw [List.cons_append, List.cons_append, List.append_assoc, List.cons_append, List.cons_append]
    exact .block hbody (ih hbehind)

end Trivia

variable {n opened : Nat} {body cs rest : List Char}

theorem triviaEnd_line (h : '\n' ∉ body) :
    triviaEnd n .inLine (body ++ '\n' :: cs) = triviaEnd (n + (body.length + 1)) .between cs := by
  induction body generalizing n with
  | nil => rfl
  | cons c body ih =>
    obtain ⟨hc, hbody⟩ := not_or.1 (mt List.mem_cons.2 h)
    have hstep : triviaEnd n .inLine ((c :: body) ++ '\n' :: cs) =
        triviaEnd (n + 1) .inLine (body ++ '\n' :: cs) := by
      rw [List.cons_append, triviaEnd]
      exact fun heq => hc heq.symm
    rw [hstep, ih hbody, List.length_cons]
    congr 1
    omega

theorem triviaEnd_lastLine (h : '\n' ∉ body) :
    triviaEnd n .inLine body = .ok (n + body.length) := by
  induction body generalizing n with
  | nil => rfl
  | cons c body ih =>
    obtain ⟨hc, hbody⟩ := not_or.1 (mt List.mem_cons.2 h)
    rw [triviaEnd, ih hbody, List.length_cons]
    · congr 1
      omega
    · exact fun heq => hc heq.symm

theorem triviaEnd_block (h : ¬ ['*', '/'] <:+: body) :
    triviaEnd n (.inBlock opened) (body ++ '*' :: '/' :: cs) =
      triviaEnd (n + (body.length + 2)) .between cs := by
  induction body generalizing n with
  | nil => rfl
  | cons c body ih =>
    have hbody : ¬ ['*', '/'] <:+: body := fun hin => h (List.infix_cons hin)
    have hstep : triviaEnd n (.inBlock opened) ((c :: body) ++ '*' :: '/' :: cs) =
        triviaEnd (n + 1) (.inBlock opened) (body ++ '*' :: '/' :: cs) := by
      rw [List.cons_append, triviaEnd]
      -- the mark would lie in the body, or it would start with a star and go on with one
      rintro after rfl hbehind
      cases body with
      | nil => simp at hbehind
      | cons d body =>
        obtain ⟨rfl, -⟩ := List.cons.inj hbehind
        exact h ⟨[], body, rfl⟩
    rw [hstep, ih hbody, List.length_cons]
    congr 1
    omega

theorem triviaEnd_openBlock (h : ¬ ['*', '/'] <:+: body) :
    triviaEnd n (.inBlock opened) body = .error opened := by
  induction body generalizing n with
  | nil => rfl
  | cons c body ih =>
    rw [triviaEnd, ih fun hin => h (List.infix_cons hin)]
    rintro after rfl rfl
    exact h ⟨[], after, rfl⟩

theorem firstMark (cs : List Char) : ¬ ['*', '/'] <:+: cs ∨
    ∃ body rest, cs = body ++ '*' :: '/' :: rest ∧ ¬ ['*', '/'] <:+: body := by
  induction cs with
  | nil => exact .inl (by simp)
  | cons c cs ih =>
    by_cases hhead : ['*', '/'] <+: c :: cs
    · obtain ⟨rest, hrest⟩ := hhead
      exact .inr ⟨[], rest, hrest.symm, by simp⟩
    · refine ih.imp (fun hnone => ?_) fun ⟨body, rest, heq, hbody⟩ => ?_
      · rw [List.infix_cons_iff]
        exact not_or.2 ⟨hhead, hnone⟩
      · refine ⟨c :: body, rest, congrArg (c :: ·) heq, ?_⟩
        rw [List.infix_cons_iff]
        refine not_or.2 ⟨fun hpre => hhead ?_, hbody⟩
        rw [heq, ← List.cons_append]
        exact hpre.trans (List.prefix_append ..)

theorem triviaEnd_space {c : Char} (h : isWhiteSpace c = true) :
    triviaEnd n .between (c :: cs) = triviaEnd (n + 1) .between cs := by
  have hslash : c ≠ '/' := fun heq => absurd (heq ▸ h) (by decide)
  rw [triviaEnd, if_pos h]
  · exact fun _ heq _ => hslash heq
  · exact fun _ heq _ => hslash heq

theorem triviaEnd_stop (h : ¬ StartsTrivia rest) : triviaEnd n .between rest = .ok n := by
  fun_cases StartsTrivia rest with
  | case1 d after =>
    rw [StartsTrivia, not_or] at h
    rw [triviaEnd, if_neg (by decide)]
    · exact fun _ _ heq => h.1 (List.cons.inj heq).1
    · exact fun _ _ heq => h.2 (List.cons.inj heq).1
  | case2 c after hslash =>
    rw [StartsTrivia] at h
    · rw [triviaEnd, if_neg h]
      · exact fun _ heq hafter => hslash _ _ heq hafter
      · exact fun _ heq hafter => hslash _ _ heq hafter
    · exact hslash
  | case3 => rfl

theorem triviaEnd_append (h : Trivia cs rest) (hstop : ¬ StartsTrivia rest) :
    triviaEnd n .between (cs ++ rest) = .ok (n + cs.length) := by
  induction h generalizing n with
  | nil => exact triviaEnd_stop hstop
  | space hspace _ ih =>
    rw [List.cons_append, triviaEnd_space hspace, ih hstop, List.length_cons]
    congr 1
    omega
  | @line body cs rest hbody _ ih =>
    have hread : triviaEnd n .between ('/' :: '/' :: (body ++ '\n' :: cs) ++ rest) =
        triviaEnd (n + 2) .inLine (body ++ '\n' :: (cs ++ rest)) := by
      simp only [List.cons_append, List.append_assoc, triviaEnd]
    rw [hread, triviaEnd_line hbody, ih hstop]
    simp only [List.length_cons, List.length_append]
    congr 1
    omega
  | @lastLine body hbody =>
    rw [List.append_nil, triviaEnd, triviaEnd_lastLine hbody]
    simp only [List.length_cons]
    congr 1
    omega
  | @block body cs rest hbody _ ih =>
    have hread : triviaEnd n .between ('/' :: '*' :: (body ++ '*' :: '/' :: cs) ++ rest) =
        triviaEnd (n + 2) (.inBlock n) (body ++ '*' :: '/' :: (cs ++ rest)) := by
      simp only [List.cons_append, List.append_assoc, triviaEnd]
    rw [hread, triviaEnd_block hbody, ih hstop]
    simp only [List.length_cons, List.length_append]
    congr 1
    omega

theorem exists_of_triviaEnd {m : Nat} (h : triviaEnd n .between cs = .ok m) :
    ∃ trivia rest, cs = trivia ++ rest ∧ m = n + trivia.length ∧ Trivia trivia rest ∧
      ¬ StartsTrivia rest := by
  induction hlength : cs.length using Nat.strong_induction_on generalizing n cs with
  | _ length ih =>
  -- a part of the trivia that has an end, and what is read behind it
  have behind : ∀ part after, cs = part ++ after → part ≠ [] →
      (∀ {cs rest}, Trivia cs rest → Trivia (part ++ cs) rest) →
      triviaEnd (n + part.length) .between after = .ok m →
      ∃ trivia rest, cs = trivia ++ rest ∧ m = n + trivia.length ∧ Trivia trivia rest ∧
        ¬ StartsTrivia rest := by
    rintro part after rfl hpart hprepend hread
    have hless : after.length < length := by
      rw [← hlength, List.length_append]
      exact Nat.lt_add_of_pos_left (List.length_pos_iff.2 hpart)
    obtain ⟨trivia, rest, rfl, rfl, htrivia, hstop⟩ := ih _ hless hread rfl
    refine ⟨part ++ trivia, rest, (List.append_assoc ..).symm, ?_, hprepend htrivia, hstop⟩
    rw [List.length_append, Nat.add_assoc]
  by_cases hstart : StartsTrivia cs
  · fun_cases StartsTrivia cs with
    | case1 d after =>
      rw [StartsTrivia] at hstart
      rcases hstart with rfl | rfl
      · rw [triviaEnd] at h
        by_cases hline : '\n' ∈ after
        · obtain ⟨body, rest, rfl, hbody⟩ := List.eq_append_cons_of_mem hline
          rw [triviaEnd_line hbody, Nat.add_assoc] at h
          refine behind ('/' :: '/' :: (body ++ ['\n'])) rest (by simp) (by simp) ?_ ?_
          · intro cs rest htrivia
            simpa using Trivia.line hbody htrivia
          · rw [← h]
            congr 1
            simp only [List.length_cons, List.length_append, List.length_nil]
            omega
        · rw [triviaEnd_lastLine hline, Except.ok.injEq] at h
          refine ⟨'/' :: '/' :: after, [], (List.append_nil _).symm, ?_, .lastLine hline, id⟩
          rw [← h, List.length_cons, List.length_cons]
          omega
      · rw [triviaEnd] at h
        rcases firstMark after with hopen | ⟨body, rest, rfl, hbody⟩
        · rw [triviaEnd_openBlock hopen] at h
          cases h
        · rw [triviaEnd_block hbody, Nat.add_assoc] at h
          refine behind ('/' :: '*' :: (body ++ ['*', '/'])) rest (by simp) (by simp) ?_ ?_
          · intro cs rest htrivia
            simpa using Trivia.block hbody htrivia
          · rw [← h]
            congr 1
            simp only [List.length_cons, List.length_append, List.length_nil]
            omega
    | case2 c after hslash =>
      rw [StartsTrivia.eq_2 _ _ hslash] at hstart
      rw [triviaEnd_space hstart] at h
      exact behind [c] after rfl (by simp) (fun htrivia => .space hstart htrivia) h
    | case3 => exact hstart.elim
  · rw [triviaEnd_stop hstart, Except.ok.injEq] at h
    exact ⟨[], cs, rfl, h.symm, .nil, hstart⟩

theorem triviaLength_eq_ok {length : Nat} : triviaLength cs = .ok length ↔
    ∃ trivia rest, cs = trivia ++ rest ∧ length = trivia.length ∧ Trivia trivia rest ∧
      ¬ StartsTrivia rest := by
  refine ⟨fun h => ?_, ?_⟩
  · obtain ⟨trivia, rest, hcs, hlength, htrivia, hstop⟩ := exists_of_triviaEnd h
    exact ⟨trivia, rest, hcs, hlength.trans (Nat.zero_add _), htrivia, hstop⟩
  · rintro ⟨trivia, rest, rfl, rfl, htrivia, hstop⟩
    rw [triviaLength, triviaEnd_append htrivia hstop, Nat.zero_add]

end Ebnf
