import Ebnf.Proofs.Syntax.OneAhead

/-! Every turn of the parser with one token of look-ahead takes a token, and what it makes of it is
what the builder makes of it. So the parser ends on every source, with the rules or the error of the
builder, and with no fault in its stack of open containers. -/

namespace Ebnf

namespace Builder

/-- What the builder ends with when these tokens are left. -/
def rules (b : Builder) (s : TokenStream) : Except GrammarError (List RuleTree) := do
  let b ← s.tokens.foldlM step b
  b.finish (← s.ending)

variable {b b' : Builder} {token : Token} {tokens : List Token} {place : Position}
  {ending : Except GrammarError Position} {done : List RuleTree} {r : OpenRule} {e : GrammarError}

theorem rules_finish : b.rules ⟨[], .ok place⟩ = b.finish place := rfl

theorem rules_token : b.rules ⟨token :: tokens, ending⟩ =
    b.step token >>= fun b => b.rules ⟨tokens, ending⟩ := by
  simp only [rules, List.foldlM_cons]
  cases b.step token <;> rfl

theorem rules_of_step_ok (h : b.step token = .ok b') :
    b.rules ⟨token :: tokens, ending⟩ = b'.rules ⟨tokens, ending⟩ := by
  rw [rules_token, h]
  rfl

theorem rules_of_step_error (h : b.step token = .error e) :
    b.rules ⟨token :: tokens, ending⟩ = .error e := by
  rw [rules_token, h]
  rfl

theorem step_inRule (h : ∀ word position, r.pending = .name word position →
    token.lexeme ≠ .define) : step (inRule done r) token = (r.take token).map (inRule done) := by
  unfold step
  dsimp only
  split
  · next word position hpending hdefine => exact absurd hdefine (h word position hpending)
  · rfl

theorem step_of_ne_define (h : token.lexeme ≠ .define) :
    step (inRule done r) token = (r.take token).map (inRule done) :=
  step_inRule fun _ _ _ => h

theorem step_settle : step (inRule done (r.settle none)) token =
    ((r.settle none).take token).map (inRule done) :=
  step_inRule (by rw [OpenRule.pending_settle]; exact nofun)

theorem step_of_begin {x : Except GrammarError OpenRule} (hp : r.pending = .none)
    (hbegin : r.begin token = x) : step (inRule done r) token = x.map (inRule done) := by
  rw [step_inRule (by rw [hp]; exact nofun), OpenRule.take, hp, ← hbegin]

theorem step_define {word : String} {position : Position} (hp : r.pending = .name word position)
    (hdefine : token.lexeme = .define) : step (inRule done r) token =
      if r.frames.isEmpty then openRule (r.finished :: done) word position
      else .error (.parse position (.ruleInsideGroup word r.name)) := by
  simp only [step, hp, hdefine]

end Builder

namespace OpenRule

theorem begin_name (r : OpenRule) {token : Token} {word : String} (h : token.lexeme = .name word) :
    r.begin token = .ok { r with pending := .name word token.position } := by
  rw [begin, h]

theorem Reads.exists_settles {r : OpenRule} {p : Pending} {ts : List Token}
    (h : ({ r with pending := p } : OpenRule).Reads ts) : ∃ before, r.Settles before := by
  obtain ⟨before, -, -, hsettles, -⟩ := h
  exact ⟨before, hsettles⟩

theorem take_settle_operand {r : OpenRule} {t : Tree} {token : Token}
    (hp : r.pending = .operand t) (hbar : token.lexeme ≠ .bar) :
    (r.settle none).take token = r.take token := by
  have hsettled : (r.settle none).take token = (r.settle none).begin token := by
    rw [take, pending_settle]
  rw [hsettled, take, hp]
  cases hl : token.lexeme with
  | bar => exact absurd hl hbar
  | _ => rfl

theorem take_quantifier_of_holds {r : OpenRule} {p : Pending} {q : Token} {t : Tree} {mark : Mark}
    {label : Option String} (hp : p.Holds t) (hq : q.lexeme = .quantifier mark label) :
    ({ r with pending := p } : OpenRule).take q = (quantifyTree t mark label q.position).map
      fun t => { r with pending := .operand t } := by
  cases hp <;> simp only [take, hq]

theorem containers_ne_nil (r : OpenRule) : r.containers ≠ [] := by
  unfold containers
  exact List.append_ne_nil_of_right_ne_nil _ (List.cons_ne_nil _ _)

theorem containers_cases (r : OpenRule) :
    r.frames = [] ∧ r.containers = [⟨.rule r.name, r.position, r.items⟩] ∨
      ∃ c cs, r.frames ≠ [] ∧ cs ≠ [] ∧ r.containers = c :: cs := by
  obtain ⟨name, position, items, frames, pending⟩ := r
  cases frames with
  | nil => exact .inl ⟨rfl, rfl⟩
  | cons f fs =>
    have hrest := containers_ne_nil ⟨name, position, items, fs, pending⟩
    exact .inr ⟨_, _, List.cons_ne_nil _ _, hrest, rfl⟩

theorem ruleName_containers (r : OpenRule) : Parser.ruleName r.containers = r.name := by
  unfold Parser.ruleName containers
  rw [List.getLast?_concat]

end OpenRule

namespace Parser

/-- The builder that a parser stands for between two turns. Nothing is pending, and what is open has
been derived. -/
inductive Stands : List RuleTree → List Container → Builder → Prop
  | idle : Stands [] [] .idle
  | inRule {done : List RuleTree} {r : OpenRule} {ts : List Token} : r.pending = .none →
      r.Settles ts → Stands done r.containers (.inRule done r)

/-- What a turn comes to when the rest of the tokens has an answer: its error, or a parser from
which no more than some tokens lead to it. -/
def Agrees (answer : Except GrammarError (List RuleTree)) (bound : Nat) :
    Except ParserError Parser → Prop
  | .error e => ∃ e', e = .grammar e' ∧ answer = .error e'
  | .ok p => ∃ b s, Stands p.done p.stack b ∧ p.lexer.Streams s ∧ s.tokens.length ≤ bound ∧
      b.rules s = answer

theorem Agrees.mono {answer : Except GrammarError (List RuleTree)} {bound bound' : Nat}
    {x : Except ParserError Parser} (h : Agrees answer bound x) (hle : bound ≤ bound') :
    Agrees answer bound' x := by
  cases x with
  | error e => exact h
  | ok p =>
    obtain ⟨b, s, hb, hs, hlength, hrules⟩ := h
    exact ⟨b, s, hb, hs, hlength.trans hle, hrules⟩

/-- The parser that a stack and a reader of tokens make with the rules that are finished. -/
def withStack (done : List RuleTree) (x : Except ParserError (List Container × Lexer)) :
    Except ParserError Parser :=
  x.map fun (stack, l) => ⟨l, done, stack⟩

variable {l l' : Lexer} {s : TokenStream} {token next : Token} {tokens ts us : List Token}
  {ending : Except GrammarError Position} {e : GrammarError} {t : Tree} {r r' : OpenRule}
  {p : Pending} {done : List RuleTree} {place : Position}

theorem agrees_attach (hr : r.Settles ts) (hpends : r.Pends r' t) (hreads : r'.Reads us)
    (h : l.Streams s) (hstep : ∀ next ∈ s.tokens.head?, next.lexeme ≠ .bar →
      Builder.step (.inRule done r') next = Builder.step (.inRule done (r'.settle none)) next) :
    Agrees ((Builder.inRule done r').rules s) s.tokens.length
      (withStack done (attach t r.containers l)) := by
  have settled : ∀ {l' : Lexer}, l'.Streams s →
      (Builder.inRule done (r'.settle none)).rules s = (Builder.inRule done r').rules s →
      Agrees ((Builder.inRule done r').rules s) s.tokens.length
        (withStack done (.ok ((r.attach t none).containers, l'))) := by
    intro l' hl' hrules
    rw [← hpends.2]
    exact ⟨_, s, .inRule (OpenRule.pending_settle ..) hreads.settle_none, hl', Nat.le_refl _,
      hrules⟩
  cases h with
  | fault herror =>
    rw [attach_fault hr (.fault herror)]
    exact ⟨_, rfl, rfl⟩
  | finish hfinish =>
    have hbar : Lexeme.finish ≠ .bar := Lexeme.noConfusion
    obtain ⟨l', hattach, hl'⟩ := attach_of_ne_bar (t := t) hr (.finish hfinish) rfl hbar
    rw [hattach]
    refine settled hl' ?_
    have hsettled := OpenRule.settle_of_none (OpenRule.pending_settle r' none) none
    rw [Builder.rules_finish, Builder.rules_finish]
    simp only [Builder.finish, hsettled]
  | @token _ next tokens ending hnext hsome hrest =>
    by_cases hbar : next.lexeme = .bar
    · obtain ⟨l', hattach, hl'⟩ := attach_bar (t := t) hr (.token hnext hsome hrest) hbar
      have hstep : Builder.step (.inRule done r') next = (r'.take next).map (.inRule done) :=
        Builder.step_of_ne_define (by rw [hbar]; exact Lexeme.noConfusion)
      rw [OpenRule.take_bar hpends.1 hbar] at hstep
      rw [hattach, ← hpends.2, Builder.rules_of_step_ok hstep]
      exact ⟨_, _, .inRule (OpenRule.pending_settle ..) (hreads.settle_some hpends.1 hbar), hl',
        Nat.le_succ _, rfl⟩
    · obtain ⟨l', hattach, hl'⟩ := attach_of_ne_bar (t := t) hr (.token hnext hsome hrest) rfl hbar
      rw [hattach]
      refine settled hl' ?_
      rw [Builder.rules_token, Builder.rules_token, hstep next rfl hbar]

theorem exists_of_isQuantifier (h : ¬ token.lexeme.isQuantifier = false) :
    ∃ mark label, token.lexeme = .quantifier mark label := by
  cases hl : token.lexeme with
  | quantifier mark label => exact ⟨mark, label, rfl⟩
  | _ => exact absurd (by rw [hl]; rfl) h

theorem qualify_of_isQuantifier_eq_false {stack : List Container} {l' : Lexer}
    (hlook : look l = .ok (next, l')) (h : next.lexeme.isQuantifier = false) :
    qualify t stack l = attach t stack l' := by
  rw [qualify, hlook]
  cases hl : next.lexeme with
  | quantifier mark label =>
    rw [hl] at h
    cases h
  | _ => simp only [bind, Except.bind, hl]

theorem qualify_of_quantifier {stack : List Container} {l' l'' : Lexer} {mark : Mark}
    {label : Option String} (hlook : look l = .ok (next, l')) (htake : take l' = .ok (next, l''))
    (h : next.lexeme = .quantifier mark label) : qualify t stack l =
      (OpenRule.quantifyTree t mark label next.position).mapError .grammar >>=
        fun t => attach t stack l'' := by
  rw [qualify, hlook]
  simp only [bind, Except.bind, h, htake]

theorem agrees_qualify (hp : p.Holds t) (hreads : ({ r with pending := p } : OpenRule).Reads us)
    (h : l.Streams s) (hdefine : ∀ word position, p = .name word position →
      ∀ next ∈ s.tokens.head?, next.lexeme ≠ .define) :
    Agrees ((Builder.inRule done { r with pending := p }).rules s) s.tokens.length
      (withStack done (qualify t r.containers l)) := by
  obtain ⟨before, hr⟩ := hreads.exists_settles
  have plain : ∀ {l' : Lexer}, l'.Streams s →
      (∀ next ∈ s.tokens.head?, next.lexeme.isQuantifier = false) →
      Agrees ((Builder.inRule done { r with pending := p }).rules s) s.tokens.length
        (withStack done (attach t r.containers l')) := by
    intro l' hl' hquantifier
    refine agrees_attach hr (OpenRule.pends_of_holds hp r) hreads hl' fun next hnext hbar => ?_
    rw [Builder.step_inRule fun word position hpending => hdefine word position hpending next hnext,
      Builder.step_settle, OpenRule.take_settle _ hbar (hquantifier next hnext)]
  cases h with
  | fault herror =>
    rw [qualify, look_fault (.fault herror)]
    exact ⟨_, rfl, rfl⟩
  | finish hfinish =>
    obtain ⟨l', hlook, hl'⟩ := exists_look (.finish hfinish) rfl
    rw [qualify_of_isQuantifier_eq_false hlook rfl]
    exact plain hl' nofun
  | @token _ next tokens ending hnext hsome hrest =>
    obtain ⟨l', hlook, hl'⟩ := exists_look (.token hnext hsome hrest) rfl
    by_cases hquantifier : next.lexeme.isQuantifier = false
    · rw [qualify_of_isQuantifier_eq_false hlook hquantifier]
      exact plain hl' (by simpa using hquantifier)
    obtain ⟨mark, label, hl⟩ := exists_of_isQuantifier hquantifier
    have hstep : Builder.step (.inRule done { r with pending := p }) next =
        (OpenRule.take { r with pending := p } next).map (.inRule done) :=
      Builder.step_of_ne_define (by rw [hl]; exact Lexeme.noConfusion)
    rw [OpenRule.take_quantifier_of_holds hp hl] at hstep
    rw [qualify_of_quantifier hlook (take_of_first hl' rfl) hl]
    cases htree : OpenRule.quantifyTree t mark label next.position with
    | error e =>
      rw [htree] at hstep
      exact ⟨e, rfl, Builder.rules_of_step_error hstep⟩
    | ok t' =>
      rw [htree] at hstep
      rw [Builder.rules_of_step_ok hstep]
      have hreads' : ({ r with pending := .operand t' } : OpenRule).Reads (us ++ [next]) :=
        hreads.quantify hl hp htree
      have hpends : r.Pends { r with pending := .operand t' } t' := ⟨nofun, fun _ => rfl⟩
      refine (agrees_attach hr hpends hreads' (streams_next hl') fun next _ hbar => ?_).mono
        (Nat.le_succ _)
      rw [Builder.step_inRule (by nofun), Builder.step_settle,
        OpenRule.take_settle_operand rfl hbar]

/-- A token that neither opens a container nor closes one stands for a leaf, if for anything. -/
theorem leaf_cases (r : OpenRule) (token : Token) (hopening : token.lexeme ≠ .opening)
    (hlook : ∀ positive, token.lexeme ≠ .lookAhead positive)
    (hclosing : ∀ label, token.lexeme ≠ .closing label) :
    (∃ e, leaf token = .error (.grammar e) ∧ r.begin token = .error e) ∨
      ∃ p t, leaf token = .ok t ∧ r.begin token = .ok { r with pending := p } ∧ p.Holds t ∧
        ∀ word position, p = .name word position → token.lexeme = .name word := by
  unfold leaf OpenRule.begin
  cases hl : token.lexeme with
  | name word =>
    refine .inr ⟨_, _, rfl, rfl, .name, fun word' position hpending => ?_⟩
    rw [(Pending.name.inj hpending).1]
  | literal | cut => exact .inr ⟨_, _, rfl, rfl, .primary, nofun⟩
  | charClass source =>
    dsimp only
    cases CharClass.parse source with
    | ok set => exact .inr ⟨_, _, rfl, rfl, .primary, nofun⟩
    | error f => exact .inl ⟨_, rfl, rfl⟩
  | opening => exact absurd hl hopening
  | lookAhead positive => exact absurd hl (hlook positive)
  | closing label => exact absurd hl (hclosing label)
  | _ => exact .inl ⟨_, rfl, rfl⟩

theorem closeGroup_cases (r : OpenRule) (label : Option String) (position : Position) :
    (∃ e, closeGroup r.containers label position = .error (.grammar e) ∧
      r.closeGroup label position = .error e) ∨
      ∃ (r' : OpenRule) (t : Tree),
        closeGroup r.containers label position = .ok (t, r'.containers) ∧
        r.closeGroup label position = .ok { r' with pending := .primary t } := by
  unfold closeGroup OpenRule.closeGroup
  rw [OpenRule.closeChoice_containers]
  obtain ⟨name, place, items, frames, pending⟩ := r.closeChoice
  rcases frames with - | ⟨⟨- | - | positive, start, held⟩, fs⟩
  · exact .inl ⟨_, rfl, rfl⟩
  · exact .inr ⟨⟨name, place, items, fs, pending⟩, _, rfl, rfl⟩
  · exact .inl ⟨_, rfl, rfl⟩
  · exact .inl ⟨_, rfl, rfl⟩

theorem agrees_error (hp : r.pending = .none) (hbegin : r.begin token = .error e) :
    Agrees ((Builder.inRule done r).rules ⟨token :: tokens, ending⟩) tokens.length
      (withStack done (.error (.grammar e))) := by
  exact ⟨e, rfl, Builder.rules_of_step_error (Builder.step_of_begin hp hbegin)⟩

theorem agrees_opened (hr : r.Settles ts) (hp : r.pending = .none)
    (hbegin : r.begin token = .ok r') (hp' : r'.pending = .none)
    (h : l.Streams ⟨tokens, ending⟩) :
    Agrees ((Builder.inRule done r).rules ⟨token :: tokens, ending⟩) tokens.length
      (withStack done (.ok (r'.containers, l))) := by
  have hsettles := (hr.begin hp hbegin).settle_none
  rw [OpenRule.settle_of_none hp'] at hsettles
  rw [Builder.rules_of_step_ok (Builder.step_of_begin hp hbegin)]
  exact ⟨_, _, .inRule hp' hsettles, h, Nat.le_refl _, rfl⟩

theorem agrees_read (hr : r.Settles ts) (hp : r.pending = .none)
    (hbegin : r.begin token = .ok { r' with pending := p }) (hholds : p.Holds t)
    (h : l.Streams ⟨tokens, ending⟩) (hdefine : ∀ word position, p = .name word position →
      ∀ next ∈ tokens.head?, next.lexeme ≠ .define) :
    Agrees ((Builder.inRule done r).rules ⟨token :: tokens, ending⟩) tokens.length
      (withStack done (qualify t r'.containers l)) := by
  rw [Builder.rules_of_step_ok (Builder.step_of_begin hp hbegin)]
  exact agrees_qualify hholds (hr.begin hp hbegin) h hdefine

theorem readElement_lookAhead {positive : Bool} (h : token.lexeme = .lookAhead positive) :
    readElement token r.containers l =
      if r.waitsForOperand then .error (fault token.position .nestedLookAhead)
      else .ok ((r.openFrame (.lookAhead positive) token.position []).containers, l) := by
  obtain ⟨name, place, items, frames, pending⟩ := r
  rw [readElement, h]
  rcases frames with - | ⟨⟨- | - | waiting, start, held⟩, fs⟩ <;> rfl

theorem agrees_lookAhead {positive : Bool} (hr : r.Settles ts) (hp : r.pending = .none)
    (h : l.Streams ⟨tokens, ending⟩) (hlook : token.lexeme = .lookAhead positive) :
    Agrees ((Builder.inRule done r).rules ⟨token :: tokens, ending⟩) tokens.length
      (withStack done (readElement token r.containers l)) := by
  have hbegin : r.begin token = if r.waitsForOperand then
      .error (.parse token.position .nestedLookAhead)
      else .ok (r.openFrame (.lookAhead positive) token.position []) := by
    rw [OpenRule.begin, hlook]
  rw [readElement_lookAhead hlook]
  by_cases hwait : r.waitsForOperand = true
  · rw [if_pos hwait] at hbegin ⊢
    exact agrees_error hp hbegin
  · rw [if_neg hwait] at hbegin ⊢
    exact agrees_opened hr hp hbegin hp h

theorem agrees_closing {label : Option String} (hr : r.Settles ts) (hp : r.pending = .none)
    (h : l.Streams ⟨tokens, ending⟩) (hclosing : token.lexeme = .closing label) :
    Agrees ((Builder.inRule done r).rules ⟨token :: tokens, ending⟩) tokens.length
      (withStack done (readElement token r.containers l)) := by
  have hbegin : r.begin token = r.closeGroup label token.position := by
    rw [OpenRule.begin, hclosing]
  rw [readElement, hclosing]
  dsimp only
  rcases closeGroup_cases r label token.position with
    ⟨e, hclose, hclose'⟩ | ⟨r', t, hclose, hclose'⟩
  · rw [hclose]
    exact agrees_error hp (hbegin.trans hclose')
  · rw [hclose]
    exact agrees_read hr hp (hbegin.trans hclose') .primary h fun _ _ => Pending.noConfusion

theorem agrees_element (hr : r.Settles ts) (hp : r.pending = .none)
    (h : l.Streams ⟨tokens, ending⟩) (hdefine : ∀ word, token.lexeme = .name word →
      ∀ next ∈ tokens.head?, next.lexeme ≠ .define) :
    Agrees ((Builder.inRule done r).rules ⟨token :: tokens, ending⟩) tokens.length
      (withStack done (readElement token r.containers l)) := by
  by_cases hopening : token.lexeme = .opening
  · have hbegin : r.begin token = .ok (r.openFrame .group token.position []) := by
      rw [OpenRule.begin, hopening]
    rw [readElement, hopening]
    exact agrees_opened hr hp hbegin hp h
  by_cases hlook : ∃ positive, token.lexeme = .lookAhead positive
  · obtain ⟨positive, hlook⟩ := hlook
    exact agrees_lookAhead hr hp h hlook
  by_cases hclosing : ∃ label, token.lexeme = .closing label
  · obtain ⟨label, hclosing⟩ := hclosing
    exact agrees_closing hr hp h hclosing
  have hread : readElement token r.containers l =
      leaf token >>= fun t => qualify t r.containers l := by
    unfold readElement
    split
    · next hl => exact absurd hl hopening
    · next hl => exact absurd ⟨_, hl⟩ hlook
    · next hl => exact absurd ⟨_, hl⟩ hclosing
    · rfl
  rw [hread]
  rcases leaf_cases r token hopening (not_exists.1 hlook) (not_exists.1 hclosing) with
    ⟨e, hleaf, hbegin⟩ | ⟨p, t, hleaf, hbegin, hholds, hname⟩
  · rw [hleaf]
    exact agrees_error hp hbegin
  · rw [hleaf]
    exact agrees_read hr hp hbegin hholds h fun word position hpending =>
      hdefine word (hname word position hpending)

theorem openRule_name {word : String} (hword : token.lexeme = .name word) :
    openRule done token l = take l >>= fun (define, l) =>
      if define.lexeme ≠ .define then
        .error (fault define.position (.expectedDefine word define.lexeme))
      else if done.any (·.name = word) then .error (fault token.position (.redefinedRule word))
      else .ok ⟨l, done, [⟨.rule word, token.position, []⟩]⟩ := by
  rw [openRule, hword]

theorem agrees_openRule {word : String} (hword : token.lexeme = .name word)
    (h : l.Streams ⟨next :: tokens, ending⟩) (hdefine : next.lexeme = .define) :
    Agrees (Builder.openRule done word token.position >>= fun b => b.rules ⟨tokens, ending⟩)
      tokens.length (openRule done token l) := by
  rw [openRule_name hword, take_of_first h rfl, Builder.openRule]
  show Agrees _ _ (if next.lexeme ≠ .define then _ else _)
  rw [if_neg (not_not_intro hdefine)]
  by_cases hany : done.any (·.name = word) = true
  · rw [if_pos hany, if_pos hany]
    exact ⟨_, rfl, rfl⟩
  · rw [if_neg hany, if_neg hany]
    have hstart : (OpenRule.start word token.position).Settles [] := .rule .none
    exact ⟨_, _, .inRule rfl hstart, streams_next h, Nat.le_refl _, rfl⟩

theorem agrees_named {word : String} (hword : token.lexeme = .name word)
    (h : l.Streams ⟨tokens, ending⟩) :
    Agrees ((Builder.named word token.position).rules ⟨tokens, ending⟩) tokens.length
      (openRule [] token l) := by
  cases h with
  | fault herror =>
    rw [openRule_name hword, take_fault (.fault herror)]
    exact ⟨_, rfl, rfl⟩
  | finish hfinish =>
    rw [openRule_name hword, take_of_first (.finish hfinish) rfl]
    exact ⟨_, rfl, rfl⟩
  | @token _ next tokens ending hnext hsome hrest =>
    by_cases hdefine : next.lexeme = .define
    · have hstep : (Builder.named word token.position).step next =
          Builder.openRule [] word token.position := by
        simp only [Builder.step, hdefine]
      rw [Builder.rules_token, hstep]
      exact (agrees_openRule hword (.token hnext hsome hrest) hdefine).mono (Nat.le_succ _)
    · have hstep : (Builder.named word token.position).step next =
          .error (.parse next.position (.expectedDefine word next.lexeme)) := by
        simp only [Builder.step]
      rw [Builder.rules_of_step_error hstep, openRule_name hword,
        take_of_first (.token hnext hsome hrest) rfl]
      show Agrees _ _ (if next.lexeme ≠ .define then _ else _)
      rw [if_pos hdefine]
      exact ⟨_, rfl, rfl⟩

theorem agrees_first (h : l.Streams ⟨tokens, ending⟩) :
    Agrees (Builder.idle.rules ⟨token :: tokens, ending⟩) tokens.length (openRule [] token l) := by
  by_cases hname : ∃ word, token.lexeme = .name word
  · obtain ⟨word, hname⟩ := hname
    have hstep : Builder.idle.step token = .ok (.named word token.position) := by
      simp only [Builder.step, hname]
    rw [Builder.rules_of_step_ok hstep]
    exact agrees_named hname h
  · have hstep : Builder.idle.step token =
        .error (.parse token.position (.expectedRuleName token.lexeme)) := by
      simp only [Builder.step]
      split
      · next word hl => exact absurd ⟨word, hl⟩ hname
      · rfl
    have hopen : openRule [] token l =
        .error (fault token.position (.expectedRuleName token.lexeme)) := by
      unfold openRule
      split
      · next word hl => exact absurd ⟨word, hl⟩ hname
      · rfl
    rw [hopen, Builder.rules_of_step_error hstep]
    exact ⟨_, rfl, rfl⟩

theorem closeRule_of_ne_nil {c : Container} {cs : List Container} (h : cs ≠ []) (word : String)
    (position : Position) : closeRule done (c :: cs) word position =
      .error (fault position (.ruleInsideGroup word (ruleName (c :: cs)))) := by
  unfold closeRule
  split
  · next heq => cases heq
  · next heq => exact absurd (List.cons.inj heq).2 h
  · rfl

theorem closeRule_containers (word : String) (position : Position) :
    closeRule done r.containers word position = if r.frames.isEmpty then .ok (r.finished :: done)
      else .error (fault position (.ruleInsideGroup word r.name)) := by
  rcases r.containers_cases with ⟨hframes, hstack⟩ | ⟨c, cs, hframes, hcs, hstack⟩
  · rw [hstack, hframes]
    rfl
  · have hname := r.ruleName_containers
    rw [hstack] at hname ⊢
    rw [closeRule_of_ne_nil hcs, hname, if_neg (by simpa using hframes)]

theorem agrees_define {word : String} (hp : r.pending = .none)
    (hword : token.lexeme = .name word) (h : l.Streams ⟨next :: tokens, ending⟩)
    (hdefine : next.lexeme = .define) :
    Agrees ((Builder.inRule done r).rules ⟨token :: next :: tokens, ending⟩) tokens.length
      (closeRule done r.containers word token.position >>= fun done => openRule done token l) := by
  rw [Builder.rules_of_step_ok (Builder.step_of_begin hp (r.begin_name hword)),
    Builder.rules_token, Builder.step_define rfl hdefine, closeRule_containers]
  by_cases hframes : r.frames.isEmpty = true
  · rw [if_pos hframes, if_pos hframes]
    exact agrees_openRule hword h hdefine
  · rw [if_neg hframes, if_neg hframes]
    exact ⟨_, rfl, rfl⟩

theorem turn_of_ne_name {stack : List Container} (hstack : stack ≠ [])
    (h : ∀ word, token.lexeme ≠ .name word) :
    turn ⟨l, done, stack⟩ token = withStack done (readElement token stack l) := by
  unfold turn
  dsimp only
  split
  · exact absurd rfl hstack
  · next word _ hl => exact absurd hl (h word)
  · rfl

theorem turn_name {stack : List Container} {word : String} (hstack : stack ≠ [])
    (h : token.lexeme = .name word) :
    turn ⟨l, done, stack⟩ token = look l >>= fun (next, l) =>
      if next.lexeme = .define then
        closeRule done stack word token.position >>= fun done => openRule done token l
      else withStack done (readElement token stack l) := by
  unfold turn
  dsimp only
  split
  · exact absurd rfl hstack
  · next word' _ hl =>
    obtain rfl := Lexeme.name.inj (hl.symm.trans h)
    rfl
  · next _ hne => exact absurd h (hne word)

/-- A name in a rule starts the next one if it is being defined, and is an element otherwise. -/
theorem agrees_name {word : String} (hr : r.Settles ts) (hp : r.pending = .none)
    (hname : token.lexeme = .name word) (h : l.Streams ⟨tokens, ending⟩) :
    Agrees ((Builder.inRule done r).rules ⟨token :: tokens, ending⟩) tokens.length
      (turn ⟨l, done, r.containers⟩ token) := by
  have element : ∀ {next : Token} {l' : Lexer}, look l = .ok (next, l') →
      l'.Streams ⟨tokens, ending⟩ → next.lexeme ≠ .define →
        (∀ next ∈ tokens.head?, next.lexeme ≠ .define) →
          Agrees ((Builder.inRule done r).rules ⟨token :: tokens, ending⟩) tokens.length
            (turn ⟨l, done, r.containers⟩ token) := by
    intro next l' hlook hl' hne hdefine
    rw [turn_name r.containers_ne_nil hname, hlook]
    show Agrees _ _ (if next.lexeme = .define then _ else _)
    rw [if_neg hne]
    exact agrees_element hr hp hl' fun _ _ => hdefine
  cases h with
  | fault herror =>
    rw [turn_name r.containers_ne_nil hname, look_fault (.fault herror),
      Builder.rules_of_step_ok (Builder.step_of_begin hp (r.begin_name hname))]
    exact ⟨_, rfl, rfl⟩
  | finish hfinish =>
    obtain ⟨l', hlook, hl'⟩ := exists_look (.finish hfinish) rfl
    exact element hlook hl' nofun nofun
  | @token _ next tokens ending hnext hsome hrest =>
    obtain ⟨l', hlook, hl'⟩ := exists_look (.token hnext hsome hrest) rfl
    by_cases hdefine : next.lexeme = .define
    · rw [turn_name r.containers_ne_nil hname, hlook]
      show Agrees _ _ (if next.lexeme = .define then _ else _)
      rw [if_pos hdefine]
      exact (agrees_define hp hname hl' hdefine).mono (Nat.le_succ _)
    · exact element hlook hl' hdefine (by simpa using hdefine)

theorem agrees_turn {stack : List Container} {b : Builder} (hb : Stands done stack b)
    (h : l.Streams ⟨tokens, ending⟩) :
    Agrees (b.rules ⟨token :: tokens, ending⟩) tokens.length (turn ⟨l, done, stack⟩ token) := by
  cases hb with
  | idle => exact agrees_first h
  | @inRule done r ts hp hr =>
    by_cases hname : ∃ word, token.lexeme = .name word
    · obtain ⟨word, hname⟩ := hname
      exact agrees_name hr hp hname h
    · rw [turn_of_ne_name r.containers_ne_nil (not_exists.1 hname)]
      exact agrees_element hr hp h fun word hl => absurd ⟨word, hl⟩ hname

theorem finish_of_ne_nil {c : Container} {cs : List Container} (hcs : cs ≠ [])
    (hlook : look l = .ok (next, l')) : finish ⟨l, done, c :: cs⟩ =
      .error (fault next.position (.unclosedRule (ruleName (c :: cs)))) := by
  unfold finish
  dsimp only
  split
  · next heq => cases heq
  · next heq => exact absurd (List.cons.inj heq).2 hcs
  · rw [hlook]
    rfl

theorem finish_eq {stack : List Container} {b : Builder} (hb : Stands done stack b)
    (h : l.Streams ⟨[], .ok place⟩) :
    finish ⟨l, done, stack⟩ = (b.finish place).mapError .grammar := by
  cases hb with
  | idle => rfl
  | @inRule done r ts hp hr =>
    rw [Builder.finish, OpenRule.settle_of_none hp]
    rcases r.containers_cases with ⟨hframes, hstack⟩ | ⟨c, cs, hframes, hcs, hstack⟩
    · rw [hstack, hframes]
      rfl
    · have hname := r.ruleName_containers
      obtain ⟨l', hlook, -⟩ := exists_look h rfl
      rw [hstack] at hname ⊢
      rw [finish_of_ne_nil hcs hlook, hname, if_neg (by simpa using hframes)]
      rfl

theorem hasNext_fault (h : l.Streams ⟨[], .error e⟩) : ∃ l', l.hasNext = (.error e, l') := by
  obtain ⟨l', hpeek⟩ := exists_peek_fault h
  exact ⟨l', by rw [Lexer.hasNext, hpeek]⟩

theorem exists_hasNext (h : l.Streams s) (hfirst : s.first = .ok token) :
    ∃ l', l.hasNext = (.ok (decide (token.lexeme ≠ .finish)), l') ∧ l'.Streams s := by
  obtain ⟨l', hpeek, hl'⟩ := exists_peek h hfirst
  exact ⟨l', by rw [Lexer.hasNext, hpeek], hl'⟩

theorem run_eq {fuel : Nat} {parser : Parser} {b : Builder}
    (hb : Stands parser.done parser.stack b) (h : parser.lexer.Streams s)
    (hfuel : s.tokens.length < fuel) : run fuel parser = some ((b.rules s).mapError .grammar) := by
  induction fuel generalizing parser b s with
  | zero => exact absurd hfuel (Nat.not_lt_zero _)
  | succ fuel ih =>
    obtain ⟨l, done, stack⟩ := parser
    cases h with
    | fault herror =>
      obtain ⟨l', hnext⟩ := hasNext_fault (.fault herror)
      rw [run, hnext]
      rfl
    | finish hfinish =>
      obtain ⟨l', hnext, hl'⟩ := exists_hasNext (.finish hfinish) rfl
      rw [run, hnext]
      exact congrArg some (finish_eq hb hl')
    | @token _ token tokens ending htoken hsome hrest =>
      obtain ⟨l', hnext, hl'⟩ := exists_hasNext (.token htoken hsome hrest) rfl
      have hagrees : Agrees (b.rules ⟨token :: tokens, ending⟩) tokens.length
          (turn ⟨l'.next.2, done, stack⟩ token) := agrees_turn hb (streams_next hl')
      rw [decide_eq_true hsome] at hnext
      rw [run, hnext]
      dsimp only
      rw [take_of_first hl' rfl]
      dsimp only
      cases hturn : turn ⟨l'.next.2, done, stack⟩ token with
      | error e =>
        rw [hturn] at hagrees
        obtain ⟨e', rfl, hrules⟩ := hagrees
        rw [hrules]
        rfl
      | ok parser =>
        rw [hturn] at hagrees
        obtain ⟨b', s, hb', hs, hlength, hrules⟩ := hagrees
        rw [← hrules]
        exact ih hb' hs (Nat.lt_of_le_of_lt hlength (Nat.lt_of_succ_lt_succ hfuel))

end Parser

theorem TokenStream.length_collect_le (fuel : Nat) (c : Cursor) :
    (collect fuel c).tokens.length ≤ c.ahead.length := by
  induction fuel generalizing c with
  | zero => exact Nat.zero_le _
  | succ fuel ih =>
    rw [collect]
    rcases c.readToken_cases with ⟨e, herror⟩ | ⟨d, hread, -⟩ | ⟨token, d, hread, hsome, -, hless⟩
    · rcases hread : c.readToken with ⟨e' | token, d⟩ <;> rw [hread] at herror
      · exact Nat.zero_le _
      · cases herror
    · rw [hread]
      exact Nat.zero_le _
    · rw [hread]
      dsimp only
      rw [if_neg hsome]
      exact Nat.lt_of_le_of_lt (ih d) hless

namespace Parser

theorem run_eq_parse {source : String} {fuel : Nat} (hfuel : source.toList.length < fuel) :
    run fuel (ofString source) = some ((RuleTree.parse source).mapError .grammar) := by
  have hlength := TokenStream.length_collect_le (source.toList.length + 1) (.ofString source)
  exact run_eq .idle (TokenStream.streams_ofString source) (Nat.lt_of_le_of_lt hlength hfuel)

theorem run_mono {n m : Nat} {parser : Parser} {answer : Except ParserError (List RuleTree)}
    (h : run n parser = some answer) (hle : n ≤ m) : run m parser = some answer := by
  induction n generalizing m parser with
  | zero => cases h
  | succ n ih =>
    obtain ⟨m, rfl⟩ := Nat.exists_eq_add_of_lt (Nat.lt_of_succ_le hle)
    rw [run] at h ⊢
    split at h
    · exact h
    · exact h
    · split at h
      · exact h
      · split at h
        · exact h
        · exact ih h (Nat.le_add_right n m)

theorem eq_parse_of_run {source : String} {fuel : Nat} {answer : Except ParserError (List RuleTree)}
    (h : run fuel (ofString source) = some answer) :
    answer = (RuleTree.parse source).mapError .grammar := by
  have henough : run (fuel + source.toList.length + 1) (ofString source) =
      some ((RuleTree.parse source).mapError .grammar) := run_eq_parse (by omega)
  rw [run_mono h (by omega)] at henough
  exact Option.some.inj henough

/-- Reading always makes progress. A token that is read is an error, the end, which is stood at
then, or uses up some of the text; trivia is skipped in turns that end; and no character starts no
token. So the parser with its stack of open containers ends on every source, with the rules that are
parsed or the error of a source, and never because a container has no room or none is open. -/
theorem makes_progress :
    (∀ c : Cursor, (∃ e, c.readToken.1 = .error e) ∨
      (∃ d, c.readToken = (.ok ⟨.finish, d.position⟩, d) ∧ d.hasNext = false) ∨
      ∃ token d, c.readToken = (.ok token, d) ∧ token.lexeme ≠ .finish ∧ c.index < d.index) ∧
    (∀ (c : Cursor) (fuel : Nat), c.ahead.length < fuel →
      Cursor.skipTurns fuel c = some c.skipTrivia) ∧
    (∀ (c : Cursor) (place : Position),
      c.readToken.1 ≠ .error (.lex place .unexpectedCharacter)) ∧
    ∀ source : String,
      (∀ fuel, source.toList.length < fuel →
        run fuel (ofString source) = some ((RuleTree.parse source).mapError .grammar)) ∧
      (∀ fuel position container,
        run fuel (ofString source) ≠ some (.error (.full position container))) ∧
      ∀ fuel position, run fuel (ofString source) ≠ some (.error (.outside position)) := by
  have grammar : ∀ {source : String} {fuel : Nat} {e : ParserError},
      run fuel (ofString source) = some (.error e) → ∃ e', e = .grammar e' := by
    intro source fuel e h
    have hanswer := eq_parse_of_run h
    cases hparse : RuleTree.parse source with
    | error e' =>
      rw [hparse] at hanswer
      exact ⟨e', Except.error.inj hanswer⟩
    | ok rules =>
      rw [hparse] at hanswer
      cases hanswer
  refine ⟨fun c => ?_, fun c fuel => Cursor.skipTurns_eq, Cursor.readToken_ne_unexpectedCharacter,
    fun source => ⟨fun fuel => run_eq_parse, fun fuel position container h => ?_,
      fun fuel position h => ?_⟩⟩
  · rcases c.readToken_cases with herror | ⟨d, hread, hend⟩ | ⟨token, d, hread, hsome, hless, -⟩
    · exact .inl herror
    · refine .inr (.inl ⟨d, hread, ?_⟩)
      rw [Cursor.hasNext, hend]
      rfl
    · exact .inr (.inr ⟨token, d, hread, hsome, hless⟩)
  · obtain ⟨e, he⟩ := grammar h
    cases he
  · obtain ⟨e, he⟩ := grammar h
    cases he

end Parser

end Ebnf
