import Ebnf.Proofs.Lexing.Peeking
import Ebnf.Proofs.Syntax.Parses

/-! Parsing with one token of look-ahead and a stack of open containers. An element is added as soon
as its last token has been taken: what follows is looked at to tell whether it is quantified, and
whether it is an option. Nothing but the containers that are open decides where it is added, so an
element might find none, or one that has no room. Adding it to the containers of a rule is what
attaching it in the builder is, and neither happens. -/

namespace Ebnf

inductive ParserError where
  | grammar (e : GrammarError)
  | full (position : Position) (container : NodeKind)
  | outside (position : Position)

def ParserError.message : ParserError → String
  | grammar e => e.message
  | full position container =>
    s!"parse error at line {position.render}: {container.describe} cannot hold another element"
  | outside position => s!"parse error at line {position.render}: grammar element outside of a rule"

def Tree.position : Tree → Position
  | leaf _ tag | group _ tag => tag.position
  | choice _ position | lookAhead _ _ position => position

inductive ContainerKind where
  | rule (name : String)
  | group
  | choice
  | lookAhead (positive : Bool)
deriving DecidableEq

structure Container where
  kind : ContainerKind
  position : Position
  items : List Tree

namespace Container

/-- The node that a container stands for, its elements numbered. -/
def node (c : Container) : NodeKind :=
  let ids := List.range c.items.length
  match c.kind with
  | .rule name => .rule name ids
  | .group => .group ids
  | .choice => .choice ids (.uniform ids.length) (.uniform ids.length)
  | .lookAhead positive => .lookAhead positive ids.head?

def add (c : Container) (t : Tree) : Container := { c with items := t :: c.items }

def adopt (c : Container) (t : Tree) : Except ParserError Container :=
  match c.node.push? c.items.length with
  | some _ => .ok (c.add t)
  | none => .error (.full t.position c.node)

def closeChoice : List Container → List Container
  | ⟨.choice, position, options⟩ :: c :: cs => c.add (.choice options.reverse position) :: cs
  | cs => cs

end Container

/-- A parser between two turns: where its reader of tokens stands, the rules that are finished, the
last one first, and the containers that are open, the innermost first. -/
structure Parser where
  lexer : Lexer
  done : List RuleTree
  stack : List Container

namespace Parser

def fault (position : Position) (f : ParseFault) : ParserError := .grammar (.parse position f)

def look (l : Lexer) : Except ParserError (Token × Lexer) :=
  match l.peek with
  | (.ok token, l) => .ok (token, l)
  | (.error e, _) => .error (.grammar e)

def take (l : Lexer) : Except ParserError (Token × Lexer) :=
  match l.next with
  | (.ok token, l) => .ok (token, l)
  | (.error e, _) => .error (.grammar e)

def ruleName (stack : List Container) : String :=
  match stack.getLast? with
  | some ⟨.rule name, _, _⟩ => name
  | _ => ""

def openRule (done : List RuleTree) (token : Token) (l : Lexer) : Except ParserError Parser :=
  match token.lexeme with
  | .name word => do
    let (define, l) ← take l
    if define.lexeme ≠ .define then
      .error (fault define.position (.expectedDefine word define.lexeme))
    else if done.any (·.name = word) then .error (fault token.position (.redefinedRule word))
    else .ok ⟨l, done, [⟨.rule word, token.position, []⟩]⟩
  | lexeme => .error (fault token.position (.expectedRuleName lexeme))

def closeRule (done : List RuleTree) (stack : List Container) (word : String)
    (position : Position) : Except ParserError (List RuleTree) :=
  match stack with
  | [] => .ok done
  | [⟨.rule name, place, items⟩] => .ok (⟨name, place, items.reverse⟩ :: done)
  | stack => .error (fault position (.ruleInsideGroup word (ruleName stack)))

/-- Adds an element to a container that is no look-ahead. If a bar follows, the element is an
option, of the container or of an alternative that is opened in it. -/
def hold (t : Tree) (c : Container) (cs : List Container) (l : Lexer) :
    Except ParserError (List Container × Lexer) := do
  let (next, l) ← look l
  let (c, cs) ←
    if c.kind ≠ .choice ∧ next.lexeme = .bar then do
      let _ ← c.adopt (.choice [] next.position)
      pure (⟨.choice, next.position, []⟩, c :: cs)
    else pure (c, cs)
  let c ← c.adopt t
  if c.kind = .choice then
    let (next, l) ← look l
    if next.lexeme = .bar then
      let (_, l) ← take l
      pure (c :: cs, l)
    else pure (Container.closeChoice (c :: cs), l)
  else pure (c :: cs, l)

def attach (t : Tree) : List Container → Lexer → Except ParserError (List Container × Lexer)
  | [], _ => .error (.outside t.position)
  | ⟨.lookAhead positive, position, items⟩ :: cs, l => do
    let _ ← Container.adopt ⟨.lookAhead positive, position, items⟩ t
    attach (.lookAhead positive t position) cs l
  | c :: cs, l => hold t c cs l

def qualify (t : Tree) (stack : List Container) (l : Lexer) :
    Except ParserError (List Container × Lexer) := do
  let (next, l) ← look l
  match next.lexeme with
  | .quantifier mark label =>
    let (_, l) ← take l
    let t ← (OpenRule.quantifyTree t mark label next.position).mapError .grammar
    attach t stack l
  | _ => attach t stack l

def leaf (token : Token) : Except ParserError Tree :=
  match token.lexeme with
  | .name word => .ok (.leaf (.reference word) (.bare token.position))
  | .literal text => .ok (.leaf (.literal text) (.bare token.position))
  | .cut => .ok (.leaf .cut (.bare token.position))
  | .charClass source =>
    match CharClass.parse source with
    | .ok set => .ok (.leaf (.charClass set) (.bare token.position))
    | .error f => .error (fault token.position (.charClass f source))
  | lexeme => .error (fault token.position (.unexpectedToken lexeme))

def closeGroup (stack : List Container) (label : Option String) (position : Position) :
    Except ParserError (Tree × List Container) :=
  match Container.closeChoice stack with
  | ⟨.group, start, items⟩ :: cs => .ok (.group items.reverse ⟨start, .once, label⟩, cs)
  | ⟨.lookAhead _, _, _⟩ :: _ => .error (fault position .lookAheadBeforeClosing)
  | _ => .error (fault position .closingOutsideGroup)

def readElement (token : Token) (stack : List Container) (l : Lexer) :
    Except ParserError (List Container × Lexer) :=
  match token.lexeme with
  | .opening => .ok (⟨.group, token.position, []⟩ :: stack, l)
  | .lookAhead positive =>
    match stack with
    | ⟨.lookAhead _, _, _⟩ :: _ => .error (fault token.position .nestedLookAhead)
    | stack => .ok (⟨.lookAhead positive, token.position, []⟩ :: stack, l)
  | .closing label => do
    let (t, stack) ← closeGroup stack label token.position
    qualify t stack l
  | _ => do
    let t ← leaf token
    qualify t stack l

def turn (p : Parser) (token : Token) : Except ParserError Parser :=
  let element := fun l => (readElement token p.stack l).map fun (stack, l) => ⟨l, p.done, stack⟩
  match p.stack, token.lexeme with
  | [], _ => openRule p.done token p.lexer
  | stack, .name word => do
    let (next, l) ← look p.lexer
    if next.lexeme = .define then
      let done ← closeRule p.done stack word token.position
      openRule done token l
    else element l
  | _, _ => element p.lexer

/-- The rules, when no token is left. -/
def finish (p : Parser) : Except ParserError (List RuleTree) :=
  match p.stack with
  | [] => .ok p.done.reverse
  | [⟨.rule name, position, items⟩] => .ok (⟨name, position, items.reverse⟩ :: p.done).reverse
  | stack => do
    let (next, _) ← look p.lexer
    .error (fault next.position (.unclosedRule (ruleName stack)))

/-- Turns until no token is left. Without an answer there have been too many. -/
def run : (fuel : Nat) → Parser → Option (Except ParserError (List RuleTree))
  | 0, _ => none
  | fuel + 1, p =>
    match p.lexer.hasNext with
    | (.error e, _) => some (.error (.grammar e))
    | (.ok false, l) => some (finish { p with lexer := l })
    | (.ok true, l) =>
      match take l with
      | .error e => some (.error e)
      | .ok (token, l) =>
        match turn { p with lexer := l } token with
        | .error e => some (.error e)
        | .ok p => run fuel p

def ofString (source : String) : Parser := ⟨.ofString source, [], []⟩

end Parser

inductive Lexer.Streams : Lexer → TokenStream → Prop
  | fault {l : Lexer} {e : GrammarError} : l.next.1 = .error e → Streams l ⟨[], .error e⟩
  | finish {l : Lexer} {place : Position} : l.next.1 = .ok ⟨.finish, place⟩ →
      Streams l ⟨[], .ok place⟩
  | token {l : Lexer} {token : Token} {tokens : List Token}
      {ending : Except GrammarError Position} : l.next.1 = .ok token → token.lexeme ≠ .finish →
      Streams l.next.2 ⟨tokens, ending⟩ → Streams l ⟨token :: tokens, ending⟩

namespace TokenStream

/-- What a reader returns next. -/
def first (s : TokenStream) : Except GrammarError Token :=
  match s.tokens, s.ending with
  | token :: _, _ => .ok token
  | [], .ok place => .ok ⟨.finish, place⟩
  | [], .error e => .error e

theorem streams_collect {c : Cursor} {fuel : Nat} (hfuel : c.ahead.length < fuel) :
    Lexer.Streams ⟨c, none⟩ (collect fuel c) := by
  induction fuel generalizing c with
  | zero => exact absurd hfuel (Nat.not_lt_zero _)
  | succ fuel ih =>
    rw [collect]
    rcases c.readToken_cases with ⟨e, herror⟩ | ⟨d, hread, -⟩ | ⟨token, d, hread, hsome, -, hless⟩
    · rcases hread : c.readToken with ⟨e' | token, d⟩ <;> rw [hread] at herror
      · exact .fault (congrArg Prod.fst hread)
      · cases herror
    · rw [hread]
      exact .finish (congrArg Prod.fst hread)
    · rw [hread]
      dsimp only
      rw [if_neg hsome]
      refine .token (congrArg Prod.fst hread) hsome ?_
      have hnext : (Lexer.mk c none).next.2 = ⟨d, none⟩ := by
        rw [Lexer.next_of_held_none, hread]
      rw [hnext]
      exact ih (by omega)

theorem streams_ofString (source : String) : (Lexer.ofString source).Streams (ofString source) :=
  streams_collect (Nat.lt_succ_self _)

end TokenStream

namespace Parser

variable {l l' : Lexer} {s : TokenStream} {token : Token} {tokens : List Token}
  {ending : Except GrammarError Position} {e : GrammarError}

theorem streams_congr (h : l.Streams s) (hnext : l'.next = l.next) : l'.Streams s := by
  cases h with
  | fault herror => exact .fault (by rw [hnext, herror])
  | finish hfinish => exact .finish (by rw [hnext, hfinish])
  | token htoken hsome hrest => exact .token (by rw [hnext, htoken]) hsome (by rwa [hnext])

theorem next_fst_of_streams (h : l.Streams s) : l.next.1 = s.first := by
  cases h with
  | fault h | finish h | token h => exact h

theorem exists_peek_fault (h : l.Streams ⟨[], .error e⟩) : ∃ l', l.peek = (.error e, l') := by
  have hpeek := Lexer.peek_eq_next.trans (next_fst_of_streams h)
  exact ⟨l.peek.2, Prod.ext hpeek rfl⟩

theorem look_fault (h : l.Streams ⟨[], .error e⟩) : look l = .error (.grammar e) := by
  obtain ⟨l', hpeek⟩ := exists_peek_fault h
  rw [look, hpeek]

theorem exists_peek (h : l.Streams s) (hfirst : s.first = .ok token) :
    ∃ l', l.peek = (.ok token, l') ∧ l'.Streams s := by
  have hnext := (next_fst_of_streams h).trans hfirst
  have hpeek := Lexer.peek_eq_next.trans hnext
  exact ⟨l.peek.2, Prod.ext hpeek rfl, streams_congr h (Lexer.next_peek hnext)⟩

theorem exists_look (h : l.Streams s) (hfirst : s.first = .ok token) :
    ∃ l', look l = .ok (token, l') ∧ l'.Streams s := by
  obtain ⟨l', hpeek, hrest⟩ := exists_peek h hfirst
  exact ⟨l', by rw [look, hpeek], hrest⟩

theorem take_fault (h : l.Streams ⟨[], .error e⟩) : take l = .error (.grammar e) := by
  have hnext : l.next = (.error e, l.next.2) := Prod.ext (next_fst_of_streams h) rfl
  rw [take, hnext]

theorem take_of_first (h : l.Streams s) (hfirst : s.first = .ok token) :
    take l = .ok (token, l.next.2) := by
  have hnext : l.next = (.ok token, l.next.2) := Prod.ext ((next_fst_of_streams h).trans hfirst) rfl
  rw [take, hnext]

theorem streams_next (h : l.Streams ⟨token :: tokens, ending⟩) :
    l.next.2.Streams ⟨tokens, ending⟩ := by
  cases h with
  | token _ _ hrest => exact hrest

end Parser

def FrameKind.container : FrameKind → ContainerKind
  | group => .group
  | choice => .choice
  | lookAhead positive => .lookAhead positive

def Frame.container (f : Frame) : Container := ⟨f.kind.container, f.position, f.items⟩

namespace OpenRule

def containers (r : OpenRule) : List Container :=
  r.frames.map Frame.container ++ [⟨.rule r.name, r.position, r.items⟩]

end OpenRule

namespace Container

theorem adopt_of_ne_lookAhead {c : Container} (h : ∀ positive, c.kind ≠ .lookAhead positive)
    (t : Tree) : c.adopt t = .ok (c.add t) := by
  obtain ⟨kind, position, items⟩ := c
  cases kind with
  | rule | group | choice => rfl
  | lookAhead positive => exact absurd rfl (h positive)

end Container

namespace Parser

variable {l : Lexer} {s : TokenStream} {bar next : Token} {tokens : List Token}
  {ending : Except GrammarError Position} {e : GrammarError} {t : Tree} {c : Container}
  {cs : List Container}

theorem hold_fault (h : l.Streams ⟨[], .error e⟩) : hold t c cs l = .error (.grammar e) := by
  rw [hold, look_fault h]
  rfl

theorem hold_of_ne_bar (h : l.Streams s) (hfirst : s.first = .ok next) (hbar : next.lexeme ≠ .bar)
    (hc : ∀ positive, c.kind ≠ .lookAhead positive) : ∃ l', hold t c cs l =
      .ok (if c.kind = .choice then Container.closeChoice (c.add t :: cs) else c.add t :: cs, l') ∧
        l'.Streams s := by
  obtain ⟨l', hlook, h⟩ := exists_look h hfirst
  obtain ⟨l'', hlook', h'⟩ := exists_look h hfirst
  have hadopt := Container.adopt_of_ne_lookAhead hc t
  have hkind : (c.add t).kind = c.kind := rfl
  by_cases hchoice : c.kind = .choice
  · refine ⟨l'', ?_, h'⟩
    simp [hold, hlook, hlook', hadopt, hchoice, hkind, hbar, bind, Except.bind, pure, Except.pure]
  · refine ⟨l', ?_, h⟩
    simp [hold, hlook, hadopt, hchoice, hkind, hbar, bind, Except.bind, pure, Except.pure]

theorem hold_bar (h : l.Streams ⟨bar :: tokens, ending⟩) (hbar : bar.lexeme = .bar)
    (hc : ∀ positive, c.kind ≠ .lookAhead positive) : ∃ l', hold t c cs l =
      .ok (if c.kind = .choice then c.add t :: cs else ⟨.choice, bar.position, [t]⟩ :: c :: cs,
        l') ∧ l'.Streams ⟨tokens, ending⟩ := by
  have hfirst : TokenStream.first ⟨bar :: tokens, ending⟩ = .ok bar := rfl
  obtain ⟨l', hlook, h⟩ := exists_look h hfirst
  obtain ⟨l'', hlook', h'⟩ := exists_look h hfirst
  have htake := take_of_first h' hfirst
  have hkind : (c.add t).kind = c.kind := rfl
  refine ⟨l''.next.2, ?_, streams_next h'⟩
  by_cases hchoice : c.kind = .choice
  · have hadopt := Container.adopt_of_ne_lookAhead hc t
    simp [hold, hlook, hlook', htake, hadopt, hchoice, hkind, hbar, bind, Except.bind, pure,
      Except.pure]
  · have hadopt := Container.adopt_of_ne_lookAhead hc (.choice [] bar.position)
    have hadopt' : (Container.mk .choice bar.position []).adopt t =
        .ok ⟨.choice, bar.position, [t]⟩ := rfl
    simp [hold, hlook, hlook', htake, hadopt, hadopt', hchoice, hbar, bind, Except.bind, pure,
      Except.pure]

end Parser

namespace OpenRule

variable {r : OpenRule} {ts : List Token} {t : Tree}

theorem closeChoice_containers (r : OpenRule) :
    Container.closeChoice r.containers = r.closeChoice.containers := by
  obtain ⟨name, position, items, frames, pending⟩ := r
  rcases frames with - | ⟨⟨- | - | positive, place, held⟩, - | ⟨f, fs⟩⟩ <;> rfl

theorem exists_holder (h : r.Settles ts) (t : Tree) : ∃ (r₀ : OpenRule) (t₀ : Tree),
    Frame.AtOperand r₀.frames ∧ (∀ bar, r.attach t bar = r₀.attach t₀ bar) ∧
      ∀ l, Parser.attach t r.containers l = Parser.attach t₀ r₀.containers l := by
  obtain ⟨name, position, items, frames, pending⟩ := r
  simp only [Settles] at h
  rcases frames with - | ⟨⟨- | - | positive, place, held⟩, fs⟩
  · exact ⟨⟨name, position, items, [], pending⟩, t, trivial, fun _ => rfl, fun _ => rfl⟩
  · exact ⟨⟨name, position, items, ⟨.group, place, held⟩ :: fs, pending⟩, t, trivial,
      fun _ => rfl, fun _ => rfl⟩
  · exact ⟨⟨name, position, items, ⟨.choice, place, held⟩ :: fs, pending⟩, t, trivial,
      fun _ => rfl, fun _ => rfl⟩
  · cases h with
    | @lookAhead _ _ mark _ _ hat =>
      exact ⟨⟨name, position, items, fs, pending⟩, .lookAhead positive t mark.position, hat,
        fun _ => rfl, fun _ => rfl⟩

theorem exists_head (h : Frame.AtOperand r.frames) : ∃ c cs, r.containers = c :: cs ∧
    (∀ positive, c.kind ≠ .lookAhead positive) ∧
    (∀ t l, Parser.attach t r.containers l = Parser.hold t c cs l) ∧
    (∀ t, (r.attach t none).containers =
      if c.kind = .choice then Container.closeChoice (c.add t :: cs) else c.add t :: cs) ∧
    ∀ t position, (r.attach t (some position)).containers =
      if c.kind = .choice then c.add t :: cs else ⟨.choice, position, [t]⟩ :: c :: cs := by
  obtain ⟨name, position, items, frames, pending⟩ := r
  rcases frames with - | ⟨⟨- | - | positive, place, held⟩, fs⟩
  · exact ⟨_, _, rfl, nofun, fun _ _ => rfl, fun _ => rfl, fun _ _ => rfl⟩
  · exact ⟨_, _, rfl, nofun, fun _ _ => rfl, fun _ => rfl, fun _ _ => rfl⟩
  · refine ⟨_, _, rfl, nofun, fun _ _ => rfl, fun t => ?_, fun _ _ => rfl⟩
    exact (closeChoice_containers
      ⟨name, position, items, ⟨.choice, place, t :: held⟩ :: fs, _⟩).symm
  · exact h.elim

end OpenRule

namespace Parser

variable {l : Lexer} {s : TokenStream} {bar next : Token} {tokens ts : List Token}
  {ending : Except GrammarError Position} {e : GrammarError} {t : Tree} {r : OpenRule}

theorem attach_fault (hr : r.Settles ts) (h : l.Streams ⟨[], .error e⟩) :
    attach t r.containers l = .error (.grammar e) := by
  obtain ⟨r₀, t₀, hat, -, hattach⟩ := r.exists_holder hr t
  obtain ⟨c, cs, -, -, hhold, -⟩ := OpenRule.exists_head hat
  rw [hattach, hhold, hold_fault h]

theorem attach_of_ne_bar (hr : r.Settles ts) (h : l.Streams s) (hfirst : s.first = .ok next)
    (hbar : next.lexeme ≠ .bar) : ∃ l', attach t r.containers l =
      .ok ((r.attach t none).containers, l') ∧ l'.Streams s := by
  obtain ⟨r₀, t₀, hat, hbuild, hattach⟩ := r.exists_holder hr t
  obtain ⟨c, cs, -, hc, hhold, hnone, -⟩ := OpenRule.exists_head hat
  rw [hattach, hhold, hbuild, hnone]
  exact hold_of_ne_bar h hfirst hbar hc

theorem attach_bar (hr : r.Settles ts) (h : l.Streams ⟨bar :: tokens, ending⟩)
    (hbar : bar.lexeme = .bar) : ∃ l', attach t r.containers l =
      .ok ((r.attach t (some bar.position)).containers, l') ∧ l'.Streams ⟨tokens, ending⟩ := by
  obtain ⟨r₀, t₀, hat, hbuild, hattach⟩ := r.exists_holder hr t
  obtain ⟨c, cs, -, hc, hhold, -, hsome⟩ := OpenRule.exists_head hat
  rw [hattach, hhold, hbuild, hsome]
  exact hold_bar h hbar hc

end Parser

end Ebnf
